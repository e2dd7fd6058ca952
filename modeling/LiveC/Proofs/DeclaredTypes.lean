import LiveC.Proofs.DeclaratorReading
import LiveC.Proofs.ParserTermination

/-!
Declarators mean the types they are written for. A declarator is read from the inside out, so each
constructor of the type becomes a suffix or a star around what is already there, and the induction
is on the declarator with the suffixes behind it.
-/

namespace LiveC

/-! ### Sizes -/

theorem CType.isSized_pointer (ty : CType) : (pointer ty).IsSized := fun _ => Nat.succ_pos 7

theorem TypeWord.isSized_combine {ws : List TypeWord} {ty : CType}
    (h : combine? ws = some ty) : ty.IsSized := by
  have word : ty = .void ∨ ty = .double ∨ ∃ t, ty = .int t := by
    unfold combine? at h
    grind
  obtain rfl | rfl | ⟨t, rfl⟩ := word
  · exact nofun
  · exact fun _ => Nat.succ_pos 7
  · obtain ⟨width, signed⟩ := t
    cases width <;> exact fun _ => Nat.succ_pos _

theorem BaseSpec.Allowed.isSized {scopes : ScopeStack} {spec : BaseSpec}
    (h : spec.Allowed scopes) : (spec.ty scopes).IsSized := by
  cases spec with
  | words ws =>
      obtain ⟨ty, combine⟩ := Option.isSome_iff_exists.mp h.2
      rw [BaseSpec.ty, combine]
      exact TypeWord.isSized_combine combine
  | named name =>
      obtain ⟨ty, found, sized⟩ := h
      rw [BaseSpec.ty, found]
      exact sized

theorem WrittenParams.isSized_apply (scopes : ScopeStack) (ps : WrittenParams) (ret : CType) :
    (ps.apply scopes ret).IsSized := by
  cases ps <;> exact nofun

namespace Parser

variable {scopes : ScopeStack}

/-! ### Declarators -/

/-- What the parameters of a function start with is no declarator. -/
theorem OpensSuffix.function {ps : WrittenParams} (h : ps.Allowed scopes) (ks : List TokenKind) :
    OpensSuffix scopes (.punct .lparen :: (ps.kinds ++ [.punct .rparen]) ++ ks) := by
  have spec {spec : BaseSpec} (allowed : spec.Allowed scopes) (ks : List TokenKind) :
      OpensSuffix scopes (.punct .lparen :: (spec.kinds ++ ks)) := by
    cases spec with
    | words ws =>
        obtain ⟨some, -⟩ := allowed
        cases ws with
        | nil => exact absurd rfl some
        | cons w ws => exact .keyword _ _
    | named name =>
        obtain ⟨ty, found, -⟩ := allowed
        exact .typeName found _
  cases ps with
  | unspecified => exact .closed _
  | void => exact .keyword _ _
  | listed row =>
      cases row with
      | last spec' d variadic =>
          simpa only [WrittenParams.kinds, WrittenRow.kinds, List.append_assoc, List.cons_append]
            using spec h.1 _
      | more spec' d others =>
          simpa only [WrittenParams.kinds, WrittenRow.kinds, List.append_assoc, List.cons_append]
            using spec h.1.1 _

end Parser

open LiveC.Parser

variable {scopes : ScopeStack}

mutual

/-- A declarator in front of suffixes that make a type of the base type declares what it makes of
that type. A pointer has no suffixes behind it. -/
theorem Written.declared : (d : Written) → (abstract : Bool) → {levels : Nat} →
    {ks : List TokenKind} → {base ty : CType} →
    (d.isPointer = true → levels = 1 ∧ ks = [] ∧ base = ty) → 1 ≤ levels →
    Suffixed scopes levels ks base ty → ty.IsSized → d.Allowed scopes ty →
    (d.name? = none → abstract = true) →
    Declared scopes abstract (d.levels levels) (d.kinds ++ ks) base d.name? (d.apply scopes ty)
  | .name x, _, _, _, _, _, _, _, suffixed, _, _, named => suffixed.declared named
  | .pointer d, abstract, _, _, _, _, alone, _, _, _, allowed, named => by
    obtain ⟨rfl, rfl, rfl⟩ := alone rfl
    have inner := d.declared abstract (fun _ => ⟨rfl, rfl, rfl⟩) Nat.le.refl (suffixed_nothing _)
      (CType.isSized_pointer _) allowed named
    rw [List.append_nil] at inner ⊢
    exact inner.pointer fun keyword => d.noKeyword keyword
  | .array d length, abstract, levels, ks, base, ty, _, deep, suffixed, sized, allowed, named => by
    have behind := suffixed.array deep allowed.1 sized
    have grown := allowed.1.isSized sized
    rw [Written.kinds_array, List.append_assoc]
    cases pointer : d.isPointer with
    | false =>
        rw [Written.grouped, pointer, Written.levels, pointer]
        refine d.declared abstract (fun other => ?_) (by omega) behind grown allowed.2 named
        cases pointer.symm.trans other
    | true =>
        have inner := d.declared abstract (fun _ => ⟨rfl, rfl, rfl⟩) Nat.le.refl (suffixed_nothing _)
          grown allowed.2 named
        rw [List.append_nil] at inner
        rw [Written.grouped, pointer, Written.levels, pointer]
        exact inner.parens d.balanced (Written.kinds_of_isPointer pointer) behind
  | .function d ps, abstract, levels, ks, base, ty, _, deep, suffixed, sized, allowed, named => by
    have behind := suffixed.function allowed.1 (ps.lists allowed.2.1)
      (.function allowed.2.1 ks)
    have grown := ps.isSized_apply scopes ty
    rw [Written.kinds_function, List.append_assoc]
    cases pointer : d.isPointer with
    | false =>
        rw [Written.grouped, pointer, Written.levels, pointer]
        refine d.declared abstract (fun other => ?_) (by omega) behind grown allowed.2.2 named
        cases pointer.symm.trans other
    | true =>
        have inner := d.declared abstract (fun _ => ⟨rfl, rfl, rfl⟩) Nat.le.refl (suffixed_nothing _)
          grown allowed.2.2 named
        rw [List.append_nil] at inner
        rw [Written.grouped, pointer, Written.levels, pointer]
        exact inner.parens d.balanced (Written.kinds_of_isPointer pointer) behind

theorem WrittenParams.lists : (ps : WrittenParams) → ps.Allowed scopes → ListsParams scopes ps
  | .unspecified, _ => listsParams_unspecified
  | .void, _ => listsParams_void
  | .listed (.last spec d variadic), allowed =>
    listsParams_listed (List.append_assoc ..) allowed.1 allowed.2.2
      (WrittenRow.lists (.last spec d variadic) allowed)
  | .listed (.more spec d others), allowed =>
    listsParams_listed (List.append_assoc ..) allowed.1.1 allowed.1.2.2
      (WrittenRow.lists (.more spec d others) allowed)

theorem WrittenRow.lists : (row : WrittenRow) → row.Allowed scopes → ListsRow scopes row
  | .last spec d variadic, allowed => by
    have declared := d.declared true (fun _ => ⟨rfl, rfl, rfl⟩) Nat.le.refl
      (suffixed_nothing _) allowed.1.isSized allowed.2.1 fun _ => rfl
    rw [List.append_nil] at declared
    exact listsRow_last allowed.1 allowed.2.2 declared variadic
  | .more spec d others, allowed => by
    have declared := d.declared true (fun _ => ⟨rfl, rfl, rfl⟩) Nat.le.refl
      (suffixed_nothing _) allowed.1.1.isSized allowed.1.2.1 fun _ => rfl
    rw [List.append_nil] at declared
    exact listsRow_more allowed.1.1 allowed.1.2.2 declared (others.lists allowed.2)

end

/-! ### Types -/

namespace BuiltType

/-- How the type is written: the base type, and the declarator around a name or around nothing. -/
def kinds (t : BuiltType) (x : Option String) : List TokenKind :=
  t.spec.kinds ++ (t.declarator (.name x)).kinds

/-- How deep its declarator nests. -/
def levels (t : BuiltType) : Nat := (t.declarator (.name none)).levels 1

/-- The name changes no nesting. -/
theorem levels_declarator (t : BuiltType) (x : Option String) :
    (t.declarator (.name x)).levels 1 = t.levels := by
  have same (t : BuiltType) : ∀ d d' : Written, d.isPointer = d'.isPointer →
      (∀ behind, d.levels behind = d'.levels behind) →
      ∀ behind, (t.declarator d).levels behind = (t.declarator d').levels behind := by
    induction t with
    | base => exact fun _ _ _ levels => levels
    | pointer t ih => exact fun d d' _ levels => ih _ _ rfl fun _ => levels 1
    | array t length ih | function t ps ih =>
        refine fun d d' pointer levels => ih _ _ rfl fun behind => ?_
        simp only [Written.levels, pointer, levels]
  exact same t (.name x) (.name none) rfl (fun _ => rfl) 1

/-- The type is read from what is written for it: of a name that is declared, and in casts and the
operands of `sizeof`. -/
structure ReadsBack (t : BuiltType) (s : ParserState) (n : Nat) : Prop where
  /-- A declaration starts with the name and the type. -/
  declaration : ∀ (x : String) (ts tail : List Token), ts.map Token.kind = t.kinds (some x) →
    EndsDeclarator tail → ∃ loc params,
      (do (productions n).declarator (← declSpecifiers).ty false : Parser Declarator)
          (s.before (ts ++ tail)) =
        .ok ⟨some (x, loc), t.ty s.scopes, params⟩ (s.before tail)
  /-- At file scope the name becomes one of the type. -/
  typedef : ∀ (x : String) (place ending : Location) (ts tail : List Token),
    ts.map Token.kind = t.kinds (some x) →
      externalDeclaration (productions n)
          (s.before (⟨.keyword .typedefKw, place⟩ :: (ts ++ ⟨.punct .semicolon, ending⟩ :: tail))) =
        .ok () { s with
          rest := tail
          scopes := s.scopes.bindFile x (.typedef (t.ty s.scopes)) }
  /-- An operand is converted to the type. -/
  cast : ∀ (opening closing : Location) (ts more : List Token), ts.map Token.kind = t.kinds none →
    Parser.cast (productions n)
        (s.before (⟨.punct .lparen, opening⟩ :: (ts ++ ⟨.punct .rparen, closing⟩ :: more))) =
      (do typed ((← (productions n).cast).castTo (t.ty s.scopes) opening) : Parser Expr)
        (s.before more)
  /-- The size is that of the type. -/
  sizeof : ∀ (place opening closing : Location) (ts more : List Token),
    ts.map Token.kind = t.kinds none →
      Parser.unary (productions n)
          (s.before (⟨.keyword .sizeofKw, place⟩ :: ⟨.punct .lparen, opening⟩ ::
            (ts ++ ⟨.punct .rparen, closing⟩ :: more))) =
        typed (Expr.sizeOf (t.ty s.scopes) place) (s.before more)

theorem Allowed.spec {t : BuiltType} {scopes : ScopeStack} (h : t.Allowed scopes) :
    t.spec.Allowed scopes :=
  (Allowed.declarator h (d := .name none) trivial).1

/-- What is behind the base type of a declaration is no specifier of it. -/
theorem front_declarator {t : BuiltType} {s : ParserState} {x : Option String}
    {ts tail : List Token} (kinds : ts.map Token.kind = (t.declarator (.name x)).kinds)
    (ends : EndsDeclarator tail) (kw : Keyword) :
    (s.before (ts ++ tail)).front.kind ≠ .keyword kw := by
  refine front_of_noKeyword ?_ kw
  rw [List.map_append, kinds]
  exact Written.noKeyword _ ends.noKeyword

section

variable {t : BuiltType} {s : ParserState} {n : Nat} (allowed : t.Allowed s.scopes)
  (low : t.levels ≤ n)
include allowed low

/-- The declarator of the type, behind its base type. -/
theorem Allowed.declared (x : Option String) (abstract : Bool) (named : x = none → abstract = true)
    {ts tail : List Token} (kinds : ts.map Token.kind = (t.declarator (.name x)).kinds)
    (ends : EndsDeclarator tail) : ∃ d : Declarator,
      (productions n).declarator (t.spec.ty s.scopes) abstract (s.before (ts ++ tail)) =
        .ok d (s.before tail) ∧ d.name.map Prod.fst = x ∧ d.ty = t.ty s.scopes := by
  obtain ⟨spec, declarator⟩ := Allowed.declarator allowed (d := .name x) trivial
  have reads := Written.declared (t.declarator (.name x)) abstract
    (fun _ => ⟨rfl, rfl, rfl⟩) Nat.le.refl (suffixed_nothing _) spec.isSized declarator
    (by rwa [name?_declarator])
  rw [List.append_nil, levels_declarator, name?_declarator, apply_declarator] at reads
  exact reads s n ts tail rfl low kinds ends

/-- The base type and the declarator behind it. -/
theorem Allowed.declaration (x : String) {ts tail : List Token}
    (kinds : ts.map Token.kind = t.kinds (some x)) (ends : EndsDeclarator tail) :
    ∃ loc params, (do (productions n).declarator (← declSpecifiers).ty false : Parser Declarator)
        (s.before (ts ++ tail)) =
      .ok ⟨some (x, loc), t.ty s.scopes, params⟩ (s.before tail) := by
  obtain ⟨front, back, rfl, first, second⟩ := List.map_eq_append_iff.mp kinds
  obtain ⟨⟨name, ty, params⟩, run, named, rfl⟩ :=
    allowed.declared low (some x) false nofun second ends
  obtain ⟨⟨x', loc⟩, rfl, rfl⟩ := Option.map_eq_some_iff.mp named
  refine ⟨loc, params, ?_⟩
  rw [List.append_assoc]
  exact (bind_ok (declSpecifiers_base t.spec allowed.spec first (front_declarator second ends))).trans
    run

omit low in
/-- Behind the keyword of a type definition. -/
theorem Allowed.typedefSpecifiers (place : Location) {ts more : List Token}
    (kinds : ts.map Token.kind = t.spec.kinds)
    (h : ∀ kw, (s.before more).front.kind ≠ .keyword kw) :
    declSpecifiers (s.before (⟨.keyword .typedefKw, place⟩ :: (ts ++ more))) =
      .ok ⟨t.spec.ty s.scopes, some .typedef, false⟩ (s.before more) := by
  obtain ⟨r, read, any, storage, isConst, type⟩ :=
    specifiers_base (r := { storage := some .typedef, any := true }) t.spec allowed.spec rfl rfl
      kinds h
  have first : specifier {} (s.before (⟨.keyword .typedefKw, place⟩ :: (ts ++ more))) =
      .ok (.yield { storage := some .typedef, any := true }) (s.before (ts ++ more)) := rfl
  refine (bind_ok (rfl : loc _ = .ok place _)).trans ?_
  refine (bind_ok ((iterate_yield first (Nat.lt_succ_self _)).trans read)).trans ?_
  rw [any]
  refine (bind_ok (type _ _)).trans ?_
  rw [storage, isConst]
  rfl

theorem Allowed.typedef (x : String) (place ending : Location) {ts tail : List Token}
    (kinds : ts.map Token.kind = t.kinds (some x)) :
    externalDeclaration (productions n)
        (s.before (⟨.keyword .typedefKw, place⟩ :: (ts ++ ⟨.punct .semicolon, ending⟩ :: tail))) =
      .ok () { s with
        rest := tail
        scopes := s.scopes.bindFile x (.typedef (t.ty s.scopes)) } := by
  obtain ⟨front, back, rfl, first, second⟩ := List.map_eq_append_iff.mp kinds
  have ends : EndsDeclarator (⟨.punct .semicolon, ending⟩ :: tail) :=
    endsDeclarator_cons rfl tail (by decide)
  obtain ⟨⟨name, ty, params⟩, run, named, rfl⟩ :=
    allowed.declared low (some x) false nofun second ends
  obtain ⟨⟨x', loc⟩, rfl, rfl⟩ := Option.map_eq_some_iff.mp named
  have noSemicolon : (s.before (back ++ ⟨.punct .semicolon, ending⟩ :: tail)).front.kind ≠
      .punct .semicolon := by
    have written (ks : List TokenKind) :
        ((t.declarator (.name (some x'))).kinds ++ ks).head? ≠ some (.punct .semicolon) :=
      Written.head?_ne (by decide) _ fun none => by
        cases (congrArg Written.name? none).symm.trans (name?_declarator t (.name (some x')))
    refine front_ne ?_ nofun
    rw [List.map_append, second]
    exact written _
  have rounds : fileDeclaratorStep (productions n) ⟨t.spec.ty s.scopes, some .typedef, false⟩ true
      (s.before (back ++ ⟨.punct .semicolon, ending⟩ :: tail)) = .ok (.done false)
        { s with
          rest := tail
          scopes := s.scopes.bindFile x' (.typedef (t.ty s.scopes)) } := by
    refine (bind_ok run).trans ?_
    refine (bind_ok (attributes_else fun kw same => by cases same)).trans ?_
    refine (bind_ok (check_else fun same => by cases same)).trans ?_
    cases (t.ty s.scopes).signature? <;> rfl
  rw [List.append_assoc, externalDeclaration_run (eat_else fun same => by cases same)
    (allowed.typedefSpecifiers place first (front_declarator second ends)) (eat_else noSemicolon),
    iterate_done rounds]

/-- The name of the type in parentheses. -/
theorem Allowed.typeName {ts more : List Token} (kinds : ts.map Token.kind = t.kinds none)
    (closing : Location) :
    Parser.typeName (productions n) (s.before (ts ++ ⟨.punct .rparen, closing⟩ :: more)) =
      .ok (t.ty s.scopes) (s.before (⟨.punct .rparen, closing⟩ :: more)) := by
  obtain ⟨front, back, rfl, first, second⟩ := List.map_eq_append_iff.mp kinds
  have ends : EndsDeclarator (⟨.punct .rparen, closing⟩ :: more) :=
    endsDeclarator_cons rfl more (by decide)
  obtain ⟨⟨name, ty, params⟩, run, named, rfl⟩ :=
    allowed.declared low none true (fun _ => rfl) second ends
  obtain rfl := Option.map_eq_none_iff.mp named
  rw [List.append_assoc]
  refine (bind_ok (rfl : loc _ = .ok _ (s.before (front ++ _)))).trans ?_
  refine (bind_ok (declSpecifiers_base t.spec allowed.spec first
    (front_declarator second ends))).trans ?_
  exact (bind_ok run).trans rfl

omit low in
/-- Parentheses around it are not those of an expression. -/
theorem Allowed.atTypeName {x : Option String} {ts more : List Token}
    (kinds : ts.map Token.kind = t.kinds x) (opening : Location) :
    atTypeName (s.before (⟨.punct .lparen, opening⟩ :: (ts ++ more))) =
      .ok true (s.before (⟨.punct .lparen, opening⟩ :: (ts ++ more))) := by
  obtain ⟨front, back, rfl, first, -⟩ := List.map_eq_append_iff.mp kinds
  obtain ⟨first, others, rfl, -, starts⟩ := startsType_base t.spec allowed.spec first
  exact starts _

theorem Allowed.cast (opening closing : Location) {ts more : List Token}
    (kinds : ts.map Token.kind = t.kinds none) :
    Parser.cast (productions n)
        (s.before (⟨.punct .lparen, opening⟩ :: (ts ++ ⟨.punct .rparen, closing⟩ :: more))) =
      (do typed ((← (productions n).cast).castTo (t.ty s.scopes) opening) : Parser Expr)
        (s.before more) := by
  refine (bind_ok (allowed.atTypeName kinds opening)).trans ?_
  refine (next_run _ _).trans ?_
  exact (bind_ok (allowed.typeName low kinds closing)).trans rfl

theorem Allowed.sizeof (place opening closing : Location) {ts more : List Token}
    (kinds : ts.map Token.kind = t.kinds none) :
    Parser.unary (productions n)
        (s.before (⟨.keyword .sizeofKw, place⟩ :: ⟨.punct .lparen, opening⟩ ::
          (ts ++ ⟨.punct .rparen, closing⟩ :: more))) =
      typed (Expr.sizeOf (t.ty s.scopes) place) (s.before more) := by
  refine (peek_run _ _).trans ((next_run _ _).trans ?_)
  refine (bind_ok (allowed.atTypeName kinds opening)).trans ?_
  refine (next_run _ _).trans ?_
  exact (bind_ok (allowed.typeName low kinds closing)).trans rfl

end

/-- Every type that C allows is read from what is written for it, as far as its nesting is below the
limit. -/
theorem readsBack {t : BuiltType} {s : ParserState} {n : Nat} (allowed : t.Allowed s.scopes)
    (low : t.levels ≤ n) : t.ReadsBack s n where
  declaration x _ _ kinds ends := allowed.declaration low x kinds ends
  typedef x place ending _ _ kinds := allowed.typedef low x place ending kinds
  cast opening closing _ _ kinds := allowed.cast low opening closing kinds
  sizeof place opening closing _ _ kinds := allowed.sizeof low place opening closing kinds

/-- Three pointers to functions that take a number, named `T`, and a pointer to rows, and maybe more,
and return pointers to functions without parameters. -/
def handlers : BuiltType :=
  .array (.pointer (.function
    (.pointer (.function (.base (.words [.unsigned, .long])) .void))
    (.listed (.more (.named "T") (.name none)
      (.last (.words [.int]) (.array (.pointer (.name (some "rows"))) 2) true))))) 3

/-- Of `unsigned long (*(*x[3])(T, int (*rows)[2], ...))(void)`. -/
theorem readsBack_handlers :
    let s : ParserState := { rest := [], endLoc := ⟨1, 1⟩, scopes := ⟨[("T", .typedef .double)], []⟩ }
    handlers.Allowed s.scopes ∧ handlers.levels ≤ maxNesting ∧
      handlers.ReadsBack s maxNesting ∧
      handlers.ty s.scopes = .array (.pointer (.function
        (.pointer (.function (.int .ulong) [] false false))
        [.double, .pointer (.array (.int .int) (some 2))] true false)) (some 3) ∧
      handlers.kinds (some "x") =
        [.keyword .unsignedKw, .keyword .longKw, .punct .lparen, .punct .star, .punct .lparen,
          .punct .star, .ident "x", .punct .lbracket, .int 3 false false true, .punct .rbracket,
          .punct .rparen, .punct .lparen, .ident "T", .punct .comma, .keyword .intKw,
          .punct .lparen, .punct .star, .ident "rows", .punct .rparen, .punct .lbracket,
          .int 2 false false true, .punct .rbracket, .punct .comma, .punct .ellipsis,
          .punct .rparen, .punct .rparen, .punct .lparen, .keyword .voidKw, .punct .rparen] := by
  intro s
  have rows : (CType.int .int).AllowsArray 2 := ⟨by decide, rfl, _, rfl, by decide⟩
  have name : (BaseSpec.named "T").Allowed s.scopes := ⟨.double, rfl, fun _ => by decide⟩
  have params : (WrittenRow.more (.named "T") (.name none) (.last (.words [.int])
      (.array (.pointer (.name (some "rows"))) 2) true)).Allowed s.scopes :=
    ⟨⟨name, trivial, rfl, rfl, rfl⟩, ⟨nofun, rfl⟩, ⟨rows, trivial⟩, rfl, rfl, rfl⟩
  have allowed : handlers.Allowed s.scopes :=
    ⟨⟨⟨⟨nofun, rfl⟩, ⟨rfl, rfl⟩, trivial⟩, ⟨rfl, rfl⟩, params⟩, by decide, rfl, _, rfl, by decide⟩
  exact ⟨allowed, by decide, readsBack allowed (by decide), by decide, by decide⟩

end BuiltType

end LiveC
