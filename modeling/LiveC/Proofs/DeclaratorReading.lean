import LiveC.Proofs.ConstantSyntax
import LiveC.Proofs.DeclaratorSyntax

/-!
Reading declarators. Wherever its tokens stand in front of the end of a declarator, the parser
comes to the name and the type that they declare, as deep as nesting is allowed.
-/

namespace LiveC

/-- What stands behind a declarator. -/
def EndsDeclarator (ts : List Token) : Prop :=
  ∀ t ∈ ts.head?, ∃ p, t.kind = .punct p ∧ p ≠ .lbracket ∧ p ≠ .lparen ∧ p ≠ .star

theorem EndsDeclarator.front {ts : List Token} (h : EndsDeclarator ts) (s : ParserState) :
    (s.before ts).front.kind = .eof ∨ ∃ p, (s.before ts).front.kind = .punct p ∧
      p ≠ .lbracket ∧ p ≠ .lparen ∧ p ≠ .star := by
  cases ts with
  | nil => exact .inl rfl
  | cons t ts => exact .inr (h t rfl)

theorem EndsDeclarator.noKeyword {ts : List Token} (h : EndsDeclarator ts) :
    NoKeyword (ts.map Token.kind) := by
  intro kw first
  cases ts with
  | nil => cases first
  | cons t ts =>
      obtain ⟨p, kind, -⟩ := h t rfl
      cases kind.symm.trans (Option.some.inj first)

theorem endsDeclarator_cons {t : Token} {p : Punct} (kind : t.kind = .punct p) (ts : List Token)
    (other : p ≠ .lbracket ∧ p ≠ .lparen ∧ p ≠ .star) : EndsDeclarator (t :: ts) := by
  intro u first
  cases first
  exact ⟨p, kind, other⟩

namespace Parser

variable {s : ParserState} {g : Productions}

/-! ### Tokens that do not stand in front -/

theorem eatKeyword_else {kw : Keyword} (h : s.front.kind ≠ .keyword kw) :
    eatKeyword kw s = .ok false s := by
  rw [eatKeyword, peek_run, beq_eq_false_iff_ne.mpr h]
  rfl

theorem qualifiers_else (h : ∀ kw, s.front.kind ≠ .keyword kw) : pointerQualifiers s = .ok () s := by
  have no (kw : Keyword) : eatKeyword kw s = .ok false s := eatKeyword_else (h kw)
  have last : (eatKeyword .restrictKw <||> eatKeyword .restrictGnuKw) s = .ok false s :=
    (bind_ok (no _)).trans (no _)
  have any : (eatKeyword .constKw <||> eatKeyword .volatileKw <||> eatKeyword .restrictKw <||>
      eatKeyword .restrictGnuKw) s = .ok false s :=
    (bind_ok (no _)).trans ((bind_ok (no _)).trans last)
  exact iterate_done ((bind_ok any).trans rfl)

theorem attributes_else (h : ∀ kw, s.front.kind ≠ .keyword kw) : skipAttributes s = .ok () s := by
  have no (kw : Keyword) : eatKeyword kw s = .ok false s := eatKeyword_else (h kw)
  have any : (eatKeyword .attributeKw <||> eatKeyword .declspecKw) s = .ok false s :=
    (bind_ok (no _)).trans (no _)
  exact iterate_done ((bind_ok any).trans rfl)

theorem pointers_else (base : CType) (h : s.front.kind ≠ .punct .star) :
    pointers base s = .ok base s :=
  (iterate_done ((bind_ok (eat_else h)).trans rfl) : iterate pointerStep base s = _)

theorem pointers_cons (base : CType) {t : Token} {ts : List Token} (star : t.kind = .punct .star)
    (h : ∀ kw, (s.before ts).front.kind ≠ .keyword kw) :
    pointers base (s.before (t :: ts)) = pointers (.pointer base) (s.before ts) := by
  have kinds : (s.before (t :: ts)).kinds = .punct .star :: ts.map Token.kind := by
    rw [← star]
    rfl
  have passed : pointerStep base (s.before (t :: ts)) =
      .ok (.yield (.pointer base)) (s.before ts) := by
    refine (bind_ok (eat_here kinds)).trans ?_
    exact (bind_ok (qualifiers_else h)).trans ((bind_ok (attributes_else h)).trans rfl)
  exact iterate_yield passed (Nat.lt_succ_self _)

/-! ### Base types -/

theorem specifier_word {r : Specifiers} (w : TypeWord) {t : Token} {ts : List Token}
    (kind : t.kind = .keyword w.keyword) :
    specifier r (s.before (t :: ts)) =
      .ok (.yield { r with words := r.words ++ [w], any := true }) (s.before ts) := by
  obtain ⟨kind', loc⟩ := t
  cases kind
  cases w <;> rfl

theorem specifiers_words {r : Specifiers} (ws : List TypeWord) {ts more : List Token}
    (kinds : ts.map Token.kind = ws.map fun w => .keyword w.keyword) :
    iterate specifier r (s.before (ts ++ more)) =
      iterate specifier { r with words := r.words ++ ws, any := r.any || !ws.isEmpty }
        (s.before more) := by
  induction ws generalizing r ts with
  | nil =>
      obtain rfl := List.map_eq_nil_iff.mp kinds
      simp
  | cons w ws ih =>
      obtain ⟨t, ts, rfl, kind, kinds⟩ := List.map_eq_cons_iff.mp kinds
      rw [List.cons_append, iterate_yield (specifier_word w kind) (Nat.lt_succ_self _), ih kinds]
      simp

/-- Behind a type, neither names nor punctuators are specifiers. -/
theorem specifier_done {r : Specifiers} (known : r.words ≠ [] ∨ r.named.isSome = true)
    (h : ∀ kw, s.front.kind ≠ .keyword kw) : specifier r s = .ok (.done r) s := by
  have full : (r.words.isEmpty && r.named.isNone) = false := by
    rcases known with words | named
    · simp [words]
    · simp [Option.isNone_eq_false_iff.mpr named]
  rw [specifier, peek_run]
  generalize s.front = t at h
  obtain ⟨kind, loc⟩ := t
  cases kind with
  | ident name =>
      refine (bind_ok (rfl : find? name s = .ok (s.scopes.find? name) s)).trans ?_
      rw [full]
      rcases s.scopes.find? name with _ | (_ | _ | _) <;> rfl
  | keyword kw => exact absurd rfl (h kw)
  | _ => rfl

/-- The specifiers of a base type behind others that are no type. -/
theorem specifiers_base {r : Specifiers} (spec : BaseSpec) (allowed : spec.Allowed s.scopes)
    (noWord : r.words = []) (noName : r.named = none) {ts more : List Token}
    (kinds : ts.map Token.kind = spec.kinds) (h : ∀ kw, (s.before more).front.kind ≠ .keyword kw) :
    ∃ r', iterate specifier r (s.before (ts ++ more)) = .ok r' (s.before more) ∧ r'.any = true ∧
      r'.storage = r.storage ∧ r'.isConst = r.isConst ∧
      ∀ loc t, specifiedType r' loc t = .ok (spec.ty s.scopes) t := by
  cases spec with
  | words ws =>
      obtain ⟨some, combine⟩ := allowed
      obtain ⟨ty, combine⟩ := Option.isSome_iff_exists.mp combine
      have nonempty : (!ws.isEmpty) = true := by simpa using some
      refine ⟨_, (specifiers_words ws kinds).trans (iterate_done (specifier_done (.inl ?_) h)),
        ?_, rfl, rfl, fun loc t => ?_⟩
      · simpa using fun _ => some
      · simp [nonempty]
      · simp only [specifiedType, noName, noWord, List.nil_append, combine, BaseSpec.ty]
        rw [if_neg (by simpa using some)]
        rfl
  | named name =>
      obtain ⟨ty, found, -⟩ := allowed
      obtain ⟨⟨_, loc⟩, others, rfl, rfl, empty⟩ := List.map_eq_cons_iff.mp kinds
      obtain rfl := List.map_eq_nil_iff.mp empty
      have first : specifier r (s.before (⟨.ident name, loc⟩ :: more)) =
          .ok (.yield { r with named := some ty, any := true }) (s.before more) := by
        rw [specifier, peek_run]
        have read : find? name (s.before (⟨.ident name, loc⟩ :: more)) =
            .ok (some (.typedef ty)) (s.before (⟨.ident name, loc⟩ :: more)) :=
          congrArg (EStateM.Result.ok · _) found
        refine (bind_ok read).trans ?_
        rw [noWord, noName]
        rfl
      refine ⟨_, (iterate_yield first (Nat.lt_succ_self _)).trans
        (iterate_done (specifier_done (.inr rfl) h)), rfl, rfl, rfl, fun loc t => ?_⟩
      simp only [specifiedType, noWord, BaseSpec.ty, found]
      rfl

/-- Reading a base type that no other specifier stands at. -/
theorem declSpecifiers_base (spec : BaseSpec) (allowed : spec.Allowed s.scopes)
    {ts more : List Token} (kinds : ts.map Token.kind = spec.kinds)
    (h : ∀ kw, (s.before more).front.kind ≠ .keyword kw) :
    declSpecifiers (s.before (ts ++ more)) =
      .ok ⟨spec.ty s.scopes, none, false⟩ (s.before more) := by
  obtain ⟨r, read, any, storage, isConst, type⟩ := specifiers_base (r := {}) spec allowed rfl rfl
    kinds h
  refine (bind_ok (rfl : loc _ = .ok _ (s.before (ts ++ more)))).trans ?_
  refine (bind_ok read).trans ?_
  rw [any]
  refine (bind_ok (type _ _)).trans ?_
  rw [storage, isConst]
  rfl

theorem startsType_base (spec : BaseSpec) (allowed : spec.Allowed s.scopes) {ts : List Token}
    (kinds : ts.map Token.kind = spec.kinds) :
    ∃ t others, ts = t :: others ∧ (∀ p, t.kind ≠ .punct p) ∧
      ∀ ts', startsType t (s.before ts') = .ok true (s.before ts') := by
  cases spec with
  | words ws =>
      obtain ⟨some, -⟩ := allowed
      cases ws with
      | nil => exact absurd rfl some
      | cons w ws =>
          obtain ⟨⟨_, loc⟩, others, rfl, rfl, -⟩ := List.map_eq_cons_iff.mp kinds
          exact ⟨_, others, rfl, nofun, fun ts' => by cases w <;> rfl⟩
  | named name =>
      obtain ⟨ty, found, -⟩ := allowed
      obtain ⟨⟨_, loc⟩, others, rfl, rfl, -⟩ := List.map_eq_cons_iff.mp kinds
      refine ⟨_, others, rfl, nofun, fun ts' => ?_⟩
      have read : find? name (s.before ts') = .ok (some (.typedef ty)) (s.before ts') :=
        congrArg (EStateM.Result.ok · _) found
      exact (bind_ok read).trans rfl

/-! ### Array lengths -/

theorem binaryStep_else {p : Punct} (other : Operator.ofPunct? p = none) (n : Nat) (e : Expr)
    {ks : List TokenKind} (kinds : s.kinds = .punct p :: ks) :
    binaryStep g n e s = .ok (.done e) s := by
  refine (bind_ok (peekPunct?_of_kinds kinds)).trans ?_
  rw [Option.bind_some, other]
  rfl

section

variable {n : Nat} {loc close : Location} {ts : List Token}

/-- A number that an object can have as its length is an `int`. -/
theorem ofLiteral_length (low : n ≤ CType.maxObjectSize) :
    IntType.ofLiteral n false false true = .int ∧ IntType.int.fits n = true := by
  have fits : IntType.int.fits n = true := decide_eq_true low
  exact ⟨by simp [IntType.ofLiteral, IntType.literalCandidates, fits], fits⟩

theorem primary_length (low : n ≤ CType.maxObjectSize) :
    primary g (s.before (⟨.int n false false true, loc⟩ :: ts)) =
      .ok (.int ⟨.int .int, loc⟩ (BitVec.ofNat 64 n)) (s.before ts) := by
  obtain ⟨type, fits⟩ := ofLiteral_length low
  rw [primary, next_run]
  change (if !(IntType.ofLiteral n false false true).fits n then _ else _ : Parser Expr) _ = _
  simp only [type, fits]
  rfl

/-- A number in brackets is read as a constant of type `int`. -/
theorem conditional_length {m : Nat} (positive : 1 ≤ m) (low : n ≤ CType.maxObjectSize) :
    conditional (productions m)
        (s.before (⟨.int n false false true, loc⟩ :: ⟨.punct .rbracket, close⟩ :: ts)) =
      .ok (.int ⟨.int .int, loc⟩ (BitVec.ofNat 64 n)) (s.before (⟨.punct .rbracket, close⟩ :: ts)) := by
  obtain ⟨m, rfl⟩ : ∃ k, m = k + 1 := ⟨m - 1, by omega⟩
  have behind : (s.before (⟨.punct .rbracket, close⟩ :: ts)).kinds =
      .punct .rbracket :: ts.map Token.kind := rfl
  have operand : (productions (m + 1)).cast
      (s.before (⟨.int n false false true, loc⟩ :: ⟨.punct .rbracket, close⟩ :: ts)) =
      .ok (.int ⟨.int .int, loc⟩ (BitVec.ofNat 64 n))
        (s.before (⟨.punct .rbracket, close⟩ :: ts)) := by
    change cast (productions m) _ = _
    rw [cast_of_other (atTypeName_else fun same => by cases same)]
    exact (bind_ok (primary_length low)).trans (iterate_done rfl)
  have level (k : Nat) : binary (productions (m + 1)) k
      (s.before (⟨.int n false false true, loc⟩ :: ⟨.punct .rbracket, close⟩ :: ts)) =
      .ok (.int ⟨.int .int, loc⟩ (BitVec.ofNat 64 n))
        (s.before (⟨.punct .rbracket, close⟩ :: ts)) := by
    induction k with
    | zero => exact (bind_ok operand).trans rfl
    | succ k ih =>
        exact (bind_ok ih).trans
          (iterate_done (binaryStep_else rfl k _ behind) : iterate (binaryStep _ k) _ _ = _)
  exact (bind_ok (level _)).trans ((bind_ok (check_eq behind)).trans rfl)

theorem arrayLength_length {m : Nat} (positive : 1 ≤ m) (low : n ≤ CType.maxObjectSize)
    (nonzero : 0 < n) (place : Location) :
    arrayLength (productions m) place
        (s.before (⟨.int n false false true, loc⟩ :: ⟨.punct .rbracket, close⟩ :: ts)) =
      .ok (some n) (s.before ts) := by
  have small : n < 2 ^ 63 := Nat.lt_of_le_of_lt low (by decide)
  have value : (BitVec.ofNat 64 n : Word).toNat = n := by
    rw [BitVec.toNat_ofNat, Nat.mod_eq_of_lt (Nat.lt_trans small (by decide))]
  have length : (BitVec.ofNat 64 n : Word).toInt = n := by
    rw [BitVec.toInt_eq_toNat_of_lt (by omega), value]
  have closed : (s.before (⟨.punct .rbracket, close⟩ :: ts)).kinds =
      .punct .rbracket :: ts.map Token.kind := rfl
  have read : typed (Expr.constantInt (.int ⟨.int .int, loc⟩ (BitVec.ofNat 64 n)))
      (s.before (⟨.punct .rbracket, close⟩ :: ts)) =
      .ok (BitVec.ofNat 64 n) (s.before (⟨.punct .rbracket, close⟩ :: ts)) := rfl
  have passed : expect .rbracket (s.before (⟨.punct .rbracket, close⟩ :: ts)) =
      .ok () (s.before ts) := (bind_ok (eat_here closed)).trans rfl
  refine (bind_ok (eat_else fun same => by cases same)).trans ?_
  refine (bind_ok (conditional_length positive low)).trans ?_
  refine (bind_ok read).trans ?_
  refine (bind_ok passed).trans ?_
  rw [length, if_neg (by omega), value]
  rfl

end

/-! ### Suffixes -/

/-- A number of suffixes starts so, or there are none: what a parenthesis opens is no declarator. -/
inductive OpensSuffix (scopes : ScopeStack) : List TokenKind → Prop
  | nothing : OpensSuffix scopes []
  | bracket (ks : List TokenKind) : OpensSuffix scopes (.punct .lbracket :: ks)
  | closed (ks : List TokenKind) : OpensSuffix scopes (.punct .lparen :: .punct .rparen :: ks)
  | keyword (kw : Keyword) (ks : List TokenKind) :
      OpensSuffix scopes (.punct .lparen :: .keyword kw :: ks)
  | typeName {name : String} {ty : CType} (found : scopes.find? name = some (.typedef ty))
      (ks : List TokenKind) : OpensSuffix scopes (.punct .lparen :: .ident name :: ks)

/-- Suffixes of these kinds make a type of a base type where so many levels are left. -/
structure Suffixed (scopes : ScopeStack) (levels : Nat) (ks : List TokenKind)
    (base ty : CType) : Prop where
  opens : OpensSuffix scopes ks
  reads : ∀ (s : ParserState) (n : Nat) (ts tail : List Token), s.scopes = scopes → levels ≤ n →
    ts.map Token.kind = ks → EndsDeclarator tail → ∃ params,
      (productions n).suffixes base (s.before (ts ++ tail)) = .ok (ty, params) (s.before tail)

/-- A declarator of these kinds makes a type of a base type where so many levels are left. -/
def Declared (scopes : ScopeStack) (abstract : Bool) (levels : Nat) (ks : List TokenKind)
    (base : CType) (name : Option String) (ty : CType) : Prop :=
  ∀ (s : ParserState) (n : Nat) (ts tail : List Token), s.scopes = scopes → levels ≤ n →
    ts.map Token.kind = ks → EndsDeclarator tail → ∃ d : Declarator,
      (productions n).declarator base abstract (s.before (ts ++ tail)) = .ok d (s.before tail) ∧
        d.name.map Prod.fst = name ∧ d.ty = ty

section

variable {scopes : ScopeStack} {abstract : Bool} {levels : Nat} {ks : List TokenKind}
  {base ty : CType} {ts tail : List Token}

theorem OpensSuffix.front (h : OpensSuffix scopes ks) (kinds : ts.map Token.kind = ks)
    (ends : EndsDeclarator tail) :
    (s.before (ts ++ tail)).front.kind = .eof ∨
      ∃ p, (s.before (ts ++ tail)).front.kind = .punct p ∧ p ≠ .star := by
  cases h with
  | nothing =>
      obtain rfl := List.map_eq_nil_iff.mp kinds
      exact (ends.front s).imp_right fun ⟨p, kind, _, _, other⟩ => ⟨p, kind, other⟩
  | bracket | closed | keyword | typeName =>
      obtain ⟨t, others, rfl, kind, -⟩ := List.map_eq_cons_iff.mp kinds
      exact .inr ⟨_, kind, by decide⟩

theorem OpensSuffix.atNestedDeclarator (h : OpensSuffix scopes ks) (same : s.scopes = scopes)
    (kinds : ts.map Token.kind = ks) (ends : EndsDeclarator tail) :
    atNestedDeclarator (s.before (ts ++ tail)) = .ok false (s.before (ts ++ tail)) := by
  cases h with
  | nothing =>
      obtain rfl := List.map_eq_nil_iff.mp kinds
      refine (bind_ok (check_else ?_)).trans rfl
      rcases ends.front s with kind | ⟨p, kind, -, other, -⟩
      · exact fun paren => by cases kind.symm.trans paren
      · exact fun paren => other (TokenKind.punct.inj (kind.symm.trans paren))
  | bracket =>
      obtain ⟨_, others, rfl, -⟩ := exists_token kinds
      rfl
  | closed | keyword =>
      obtain ⟨_, others, rfl, behind⟩ := exists_token kinds
      obtain ⟨_, others, rfl, -⟩ := exists_token behind
      rfl
  | @typeName name ty found =>
      obtain ⟨paren, others, rfl, behind⟩ := exists_token kinds
      obtain ⟨place, others, rfl, -⟩ := exists_token behind
      subst same
      have isType (t : ParserState) (same : t.scopes = s.scopes) :
          isTypedef ⟨.ident name, place⟩ t = .ok true t := by
        have read : find? name t = .ok (some (.typedef ty)) t :=
          congrArg (EStateM.Result.ok · t) (same ▸ found)
        exact (bind_ok read).trans rfl
      generalize state : s.before
        (⟨.punct .lparen, paren⟩ :: ⟨.ident name, place⟩ :: others ++ tail) = t
      have opened : check .lparen t = .ok true t := state ▸ rfl
      have second : peekSecond t = .ok ⟨.ident name, place⟩ t := state ▸ rfl
      refine (bind_ok opened).trans ((bind_ok second).trans ?_)
      exact (bind_ok (isType t (state ▸ rfl))).trans rfl

/-- Behind the last suffix. -/
theorem suffixed_nothing (base : CType) : Suffixed scopes 1 [] base base := by
  refine ⟨.nothing, fun s n ts tail _ low kinds ends => ?_⟩
  obtain ⟨n, rfl⟩ : ∃ k, n = k + 1 := ⟨n - 1, by omega⟩
  obtain rfl := List.map_eq_nil_iff.mp kinds
  have other {p : Punct} (opens : p = .lbracket ∨ p = .lparen) :
      (s.before tail).front.kind ≠ .punct p := by
    intro kind'
    rcases ends.front s with kind | ⟨q, kind, noBracket, noParen, -⟩
    · cases kind.symm.trans kind'
    · obtain rfl := TokenKind.punct.inj (kind.symm.trans kind')
      exact opens.elim noBracket noParen
  refine ⟨none, ?_⟩
  change suffixes (productions n) base (s.before tail) = _
  refine (bind_ok (rfl : loc _ = .ok _ (s.before tail))).trans ?_
  refine (bind_ok (eat_else (other (.inl rfl)))).trans ?_
  exact (bind_ok (eat_else (other (.inr rfl)))).trans rfl

end

end Parser

/-- A complete type is not empty. -/
def CType.IsSized (ty : CType) : Prop := ty.isComplete = true → 0 < ty.size

namespace CType

variable {element : CType} {length : Nat}

theorem AllowsArray.sizes (h : element.AllowsArray length) :
    ∃ size, element.checkedSize = some size ∧
      (array element (some length)).checkedSize = some (size * length) ∧
      size * length ≤ maxObjectSize := by
  obtain ⟨size, checked, low⟩ := h.fits
  have whole := checked
  unfold checkedSize at checked
  cases inner : element.checkedSize with
  | none =>
      rw [inner] at checked
      cases checked
  | some size' =>
      rw [inner] at checked
      have total : (if size' * length < Word.modulus then some (size' * length) else none) =
          some size := checked
      split at total
      · cases total
        exact ⟨size', rfl, whole, low⟩
      · cases total

theorem AllowsArray.length_le (h : element.AllowsArray length) (sized : element.IsSized) :
    length ≤ maxObjectSize := by
  obtain ⟨size, checked, -, low⟩ := h.sizes
  have positive := sized h.complete
  rw [CType.size, checked, Option.getD_some] at positive
  exact Nat.le_trans (Nat.le_mul_of_pos_left _ positive) low

theorem AllowsArray.isSized (h : element.AllowsArray length) (sized : element.IsSized) :
    (array element (some length)).IsSized := by
  obtain ⟨size, checked, whole, -⟩ := h.sizes
  have positive := sized h.complete
  rw [CType.size, checked, Option.getD_some] at positive
  intro _
  rw [CType.size, whole]
  exact Nat.mul_pos positive h.positive

end CType

namespace Parser

variable {s : ParserState} {scopes : ScopeStack} {abstract : Bool} {levels : Nat}
  {ks : List TokenKind} {base ty : CType}

theorem Suffixed.array (h : Suffixed scopes levels ks base ty) (deep : 1 ≤ levels) {length : Nat}
    (allowed : ty.AllowsArray length) (sized : ty.IsSized) :
    Suffixed scopes (levels + 1)
      ([.punct .lbracket, .int length false false true, .punct .rbracket] ++ ks) base
      (.array ty (some length)) := by
  refine ⟨.bracket _, fun s n ts tail same low kinds ends => ?_⟩
  obtain ⟨n, rfl⟩ : ∃ k, n = k + 1 := ⟨n - 1, by omega⟩
  obtain ⟨opening, ts, rfl, inside⟩ := exists_token kinds
  obtain ⟨number, ts, rfl, closed⟩ := exists_token inside
  obtain ⟨closing, ts, rfl, behind⟩ := exists_token closed
  obtain ⟨params, run⟩ := h.reads s n ts tail same (by omega) behind ends
  obtain ⟨size, -, whole, fits⟩ := allowed.sizes
  have small : ((CType.array ty (some length)).checkedSize.all (· > CType.maxObjectSize)) = false := by
    simpa [whole] using fits
  refine ⟨none, ?_⟩
  change suffixes (productions n) base _ = _
  refine (bind_ok (rfl : loc _ = .ok opening _)).trans ?_
  refine (bind_ok (eat_here rfl)).trans ?_
  refine (bind_ok (arrayLength_length (by omega) (allowed.length_le sized) allowed.positive _)).trans
    ?_
  refine (bind_ok run).trans ?_
  simp only [allowed.complete, small]
  rfl

/-! ### Parameters -/

theorem front_of_noKeyword {ts : List Token} (h : NoKeyword (ts.map Token.kind)) (kw : Keyword) :
    (s.before ts).front.kind ≠ .keyword kw := front_ne (h kw) nofun

/-- The parameter that is added to others. -/
def ParamList.add (l : ParamList) (p : Param) : ParamList := { l with params := l.params ++ [p] }

section

variable {spec : BaseSpec} {d : Written}

/-- Reading a parameter up to what stands behind it. -/
theorem parameter_read (allowed : spec.Allowed s.scopes)
    (passed : (d.apply s.scopes (spec.ty s.scopes)).IsPassed)
    (declared : Declared s.scopes true levels d.kinds (spec.ty s.scopes) d.name?
      (d.apply s.scopes (spec.ty s.scopes)))
    {n : Nat} (low : levels ≤ n) (l : ParamList) {ts : List Token} {close : Token}
    (kinds : ts.map Token.kind = spec.kinds ++ d.kinds)
    (closes : close.kind = .punct .comma ∨ close.kind = .punct .rparen) (more : List Token) :
    ∃ p : Param, p.ty = d.apply s.scopes (spec.ty s.scopes) ∧
      parameter (productions n) l (s.before (ts ++ close :: more)) =
        .ok (if close.kind = .punct .comma then .yield (l.add p) else .done (l.add p))
          (s.before more) := by
  obtain ⟨front, back, rfl, first, second⟩ := List.map_eq_append_iff.mp kinds
  have ends : EndsDeclarator (close :: more) := by
    rcases closes with kind | kind
    · exact endsDeclarator_cons kind more (by decide)
    · exact endsDeclarator_cons kind more (by decide)
  obtain ⟨t, others, rfl, noPunct, isType⟩ := startsType_base spec allowed first
  obtain ⟨d', run, -, type⟩ := declared s n back _ rfl low second ends
  have noKeyword (kw : Keyword) : (s.before (back ++ close :: more)).front.kind ≠ .keyword kw := by
    refine front_of_noKeyword ?_ kw
    rw [List.map_append, second]
    exact d.noKeyword ends.noKeyword
  have adjusted : Param.ofDeclarator d' t.loc (s.before (close :: more)) =
      .ok ⟨d'.name.map Prod.fst, d'.ty, t.loc⟩ (s.before (close :: more)) := by
    rw [← type] at passed
    obtain ⟨name, ty, params⟩ := d'
    cases ty with
    | array => cases passed.1
    | function => cases passed.2.1
    | void => cases passed.2.2
    | _ => rfl
  refine ⟨⟨d'.name.map Prod.fst, d'.ty, t.loc⟩, type, ?_⟩
  rw [List.append_assoc, List.cons_append]
  have noEllipsis : eat .ellipsis (s.before (t :: (others ++ (back ++ close :: more)))) =
      .ok false (s.before (t :: (others ++ (back ++ close :: more)))) :=
    eat_else (noPunct .ellipsis)
  refine (bind_ok noEllipsis).trans ?_
  refine (bind_ok (rfl : peek _ = .ok t _)).trans ?_
  refine (bind_ok (isType _)).trans ?_
  refine (bind_ok (declSpecifiers_base spec allowed first noKeyword)).trans ?_
  refine (bind_ok run).trans ?_
  refine (bind_ok adjusted).trans ?_
  obtain ⟨kind, place⟩ := close
  rcases closes with same | same <;> cases same <;> rfl

end

/-- Parameters of these kinds are read up to the parenthesis behind them. -/
def ListsRow (scopes : ScopeStack) (row : WrittenRow) : Prop :=
  ∀ (s : ParserState) (n : Nat) (l : ParamList) (ts : List Token) (close : Token)
    (more : List Token), s.scopes = scopes → row.levels ≤ n → ts.map Token.kind = row.kinds →
    close.kind = .punct .rparen → l.variadic = false → ∃ l' : ParamList,
      iterate (parameter (productions n)) l (s.before (ts ++ close :: more)) =
        .ok l' (s.before more) ∧
      l'.params.map Param.ty = l.params.map Param.ty ++ row.types scopes ∧
      l'.variadic = row.variadic ∧ l'.unspecified = l.unspecified

/-- What stands between the parentheses of a function is read up to the closing one. -/
def ListsParams (scopes : ScopeStack) (ps : WrittenParams) : Prop :=
  ∀ (s : ParserState) (n : Nat) (ts : List Token) (close : Token) (more : List Token),
    s.scopes = scopes → ps.levels ≤ n → ts.map Token.kind = ps.kinds →
    close.kind = .punct .rparen → ∃ l : ParamList,
      parameterList (productions n) (s.before (ts ++ close :: more)) = .ok l (s.before more) ∧
      ∀ ret, CType.function ret (l.params.map Param.ty) l.variadic l.unspecified =
        ps.apply scopes ret

section

variable {spec : BaseSpec} {d : Written} {others : WrittenRow}
  (allowed : spec.Allowed scopes) (passed : (d.apply scopes (spec.ty scopes)).IsPassed)
  (declared : Declared scopes true (d.levels 1) d.kinds (spec.ty scopes) d.name?
    (d.apply scopes (spec.ty scopes)))
include allowed passed declared

theorem listsRow_last (variadic : Bool) : ListsRow scopes (.last spec d variadic) := by
  rintro s n l ts close more rfl low kinds closes notVariadic
  obtain ⟨front, back, rfl, first, second⟩ := List.map_eq_append_iff.mp kinds
  cases variadic with
  | false =>
      obtain rfl := List.map_eq_nil_iff.mp second
      obtain ⟨p, type, run⟩ := parameter_read allowed passed declared low l first (.inr closes) more
      rw [if_neg (by rw [closes]; decide)] at run
      refine ⟨l.add p, ?_, ?_, notVariadic, rfl⟩
      · rw [List.append_nil]
        exact iterate_done run
      · rw [ParamList.add, List.map_append, List.map_singleton, type]
        rfl
  | true =>
      obtain ⟨comma, back, rfl, behind⟩ := exists_token second
      obtain ⟨dots, back, rfl, empty⟩ := exists_token behind
      obtain rfl := List.map_eq_nil_iff.mp empty
      have separates : (⟨.punct .comma, comma⟩ : Token).kind = .punct .comma := rfl
      obtain ⟨p, type, run⟩ := parameter_read allowed passed declared low l first (.inl separates)
        (⟨.punct .ellipsis, dots⟩ :: close :: more)
      have ellipsis : parameter (productions n) (l.add p)
          (s.before (⟨.punct .ellipsis, dots⟩ :: close :: more)) =
          .ok (.done { l.add p with variadic := true }) (s.before more) := by
        obtain ⟨_, place⟩ := close
        cases closes
        rfl
      refine ⟨{ l.add p with variadic := true }, ?_, ?_, rfl, rfl⟩
      · rw [List.append_assoc]
        refine (iterate_yield run ?_).trans (iterate_done ellipsis)
        simp only [ParserState.before, List.length_append, List.length_cons]
        omega
      · rw [ParamList.add, List.map_append, List.map_singleton, type]
        rfl

theorem listsRow_more (h : ListsRow scopes others) : ListsRow scopes (.more spec d others) := by
  rintro s n l ts close more rfl low kinds closes notVariadic
  obtain ⟨front, back, rfl, first, second⟩ := List.map_eq_append_iff.mp kinds
  obtain ⟨comma, back, rfl, behind⟩ := exists_token second
  obtain ⟨low, lower⟩ := Nat.max_le.mp low
  have separates : (⟨.punct .comma, comma⟩ : Token).kind = .punct .comma := rfl
  obtain ⟨p, type, run⟩ := parameter_read allowed passed declared low l first (.inl separates)
    (back ++ close :: more)
  obtain ⟨l', runs, types, variadic, unspecified⟩ :=
    h s n (l.add p) back close more rfl lower behind closes notVariadic
  refine ⟨l', ?_, ?_, variadic, unspecified⟩
  · rw [List.append_assoc]
    refine (iterate_yield run ?_).trans runs
    simp only [ParserState.before, List.length_append, List.length_cons]
    omega
  · rw [types, ParamList.add, List.map_append, List.map_singleton, type, List.append_assoc]
    rfl

omit declared in
/-- A parameter is not taken for an empty list. -/
theorem notVoid {s : ParserState} {ts : List Token} {ks : List TokenKind}
    (kinds : ts.map Token.kind = spec.kinds ++ (d.kinds ++ ks)) :
    ((s.before ts).front.kind == .keyword .voidKw &&
      (ts.tail.head?.getD ⟨.eof, s.endLoc⟩).kind == .punct .rparen) = false := by
  rw [Bool.and_eq_false_iff, beq_eq_false_iff_ne, beq_eq_false_iff_ne]
  cases spec with
  | named name =>
      obtain ⟨place, others, rfl, -⟩ := exists_token kinds
      exact .inl nofun
  | words ws =>
      match ws with
      | [] => exact absurd rfl allowed.1
      | w :: w' :: ws =>
          obtain ⟨place, others, rfl, behind⟩ := exists_token kinds
          obtain ⟨place', others, rfl, -⟩ := exists_token behind
          exact .inr nofun
      | [w] =>
          obtain ⟨place, others, rfl, behind⟩ := exists_token kinds
          by_cases void : w = .void
          · subst void
            have named : d ≠ .name none := by
              rintro rfl
              cases passed.2.2
            have noClose : (d.kinds ++ ks).head? ≠ some (.punct .rparen) :=
              d.head?_ne (by decide) fun none => absurd none named
            refine .inr ?_
            cases others with
            | nil => exact nofun
            | cons t others =>
                intro close
                have same : (t :: others).map Token.kind = d.kinds ++ ks := behind
                rw [← same] at noClose
                exact noClose (congrArg Option.some close)
          · refine .inl fun word => void ?_
            cases w <;> first | rfl | cases word

end

theorem listsParams_unspecified : ListsParams scopes .unspecified := by
  rintro s n ts close more - - kinds closes
  obtain rfl := List.map_eq_nil_iff.mp kinds
  obtain ⟨_, place⟩ := close
  cases closes
  exact ⟨{ unspecified := true }, rfl, fun _ => rfl⟩

theorem listsParams_void : ListsParams scopes .void := by
  rintro s n ts close more - - kinds closes
  obtain ⟨loc, others, rfl, empty⟩ := exists_token kinds
  obtain rfl := List.map_eq_nil_iff.mp empty
  obtain ⟨_, place⟩ := close
  cases closes
  exact ⟨{}, rfl, fun _ => rfl⟩

/-- A row of parameters is neither an open list nor an empty one. -/
theorem listsParams_listed {row : WrittenRow} {spec : BaseSpec} {d : Written} {ks : List TokenKind}
    (starts : row.kinds = spec.kinds ++ (d.kinds ++ ks)) (allowed : spec.Allowed scopes)
    (passed : (d.apply scopes (spec.ty scopes)).IsPassed) (h : ListsRow scopes row) :
    ListsParams scopes (.listed row) := by
  rintro s n ts close more rfl low kinds closes
  obtain ⟨l, run, types, variadic, unspecified⟩ :=
    h s n {} ts close more rfl low kinds closes rfl
  refine ⟨l, ?_, fun ret => ?_⟩
  · have all : (ts ++ close :: more).map Token.kind =
        spec.kinds ++ (d.kinds ++ (ks ++ .punct .rparen :: more.map Token.kind)) := by
      have kinds : ts.map Token.kind = spec.kinds ++ (d.kinds ++ ks) := kinds.trans starts
      rw [List.map_append, kinds, List.map_cons, closes]
      simp only [List.append_assoc]
    have listed := notVoid (s := s) allowed passed all
    obtain ⟨front, back, rfl, first, -⟩ := List.map_eq_append_iff.mp (kinds.trans starts)
    obtain ⟨t, others, rfl, noPunct, -⟩ := startsType_base spec allowed first
    have noClose : eat .rparen (s.before (t :: others ++ back ++ close :: more)) =
        .ok false (s.before (t :: others ++ back ++ close :: more)) := eat_else (noPunct .rparen)
    refine (bind_ok noClose).trans ?_
    refine (bind_ok (rfl : peek _ = .ok _ (s.before (t :: others ++ back ++ close :: more)))).trans ?_
    refine (bind_ok (rfl : peekSecond _ = .ok _ (s.before (t :: others ++ back ++ close :: more)))).trans ?_
    refine (congrArg (fun b : Bool => (if b = true then _ else _ : Parser ParamList) _) listed).trans ?_
    exact run
  · rw [types, variadic, unspecified]
    rfl

theorem Suffixed.function (h : Suffixed scopes levels ks base ty) (returned : ty.IsReturned)
    {ps : WrittenParams} (lists : ListsParams scopes ps)
    (opens : OpensSuffix scopes (.punct .lparen :: (ps.kinds ++ [.punct .rparen]) ++ ks)) :
    Suffixed scopes (max levels ps.levels + 1)
      (.punct .lparen :: (ps.kinds ++ [.punct .rparen]) ++ ks) base (ps.apply scopes ty) := by
  refine ⟨opens, fun s n ts tail same low kinds ends => ?_⟩
  obtain ⟨n, rfl⟩ : ∃ k, n = k + 1 := ⟨n - 1, by omega⟩
  obtain ⟨opening, ts, rfl, inside⟩ := exists_token kinds
  rw [List.append_eq, List.append_assoc] at inside
  obtain ⟨front, back, rfl, listed, closed⟩ := List.map_eq_append_iff.mp inside
  obtain ⟨closing, ts, rfl, behind⟩ := exists_token closed
  obtain ⟨l, reads, signature⟩ := lists s n front ⟨.punct .rparen, closing⟩ (ts ++ tail) same
    (by omega) listed rfl
  obtain ⟨params, run⟩ := h.reads s n ts tail same (by omega) behind ends
  refine ⟨some l.params, ?_⟩
  rw [List.cons_append, List.append_assoc, List.cons_append]
  change suffixes (productions n) base _ = _
  refine (bind_ok (rfl : loc _ = .ok opening _)).trans ?_
  refine (bind_ok (eat_else fun same => by cases same)).trans ?_
  refine (bind_ok (eat_here rfl)).trans ?_
  refine (bind_ok reads).trans ?_
  refine (bind_ok run).trans ?_
  have plain : (ty.isArray || ty.isFunction) = false := by
    rw [returned.1, returned.2]
    rfl
  simp only [plain]
  exact congrArg (fun ty' => EStateM.Result.ok (ty', some l.params) (s.before tail)) (signature ty)

/-! ### Declarators -/

/-- A name in front of suffixes, or where there could be one. -/
theorem Suffixed.declared (h : Suffixed scopes levels ks base ty) {x : Option String}
    (named : x = none → abstract = true) :
    Declared scopes abstract (levels + 1) ((Written.name x).kinds ++ ks) base x ty := by
  rintro s n ts tail same low kinds ends
  obtain ⟨n, rfl⟩ : ∃ k, n = k + 1 := ⟨n - 1, by omega⟩
  change ∃ d, Parser.declarator (productions n) base abstract _ = _ ∧ _
  cases x with
  | some x =>
      obtain ⟨place, ts, rfl, behind⟩ := exists_token kinds
      obtain ⟨params, run⟩ := h.reads s n ts tail same (by omega) behind ends
      refine ⟨⟨some (x, place), ty, params⟩, ?_, rfl, rfl⟩
      refine (bind_ok (pointers_else base fun same => by cases same)).trans ?_
      refine (bind_ok (attributes_else fun kw same => by cases same)).trans ?_
      refine (bind_ok (rfl : atNestedDeclarator _ = .ok false _)).trans ?_
      refine (peek_run _ _).trans ?_
      exact (bind_ok run).trans rfl
  | none =>
      obtain ⟨params, run⟩ := h.reads s n ts tail same (by omega) kinds ends
      obtain rfl := named rfl
      refine ⟨⟨none, ty, params⟩, ?_, rfl, rfl⟩
      have front := h.opens.front (s := s) kinds ends
      have nested := h.opens.atNestedDeclarator same kinds ends
      generalize s.before (ts ++ tail) = t at front nested run ⊢
      have noStar : t.front.kind ≠ .punct .star := by
        rcases front with kind | ⟨p, kind, other⟩
        · exact fun star => by cases kind.symm.trans star
        · exact fun star => other (TokenKind.punct.inj (kind.symm.trans star))
      have noKeyword (kw : Keyword) : t.front.kind ≠ .keyword kw := by
        rcases front with kind | ⟨p, kind, -⟩ <;>
        exact fun keyword => by cases kind.symm.trans keyword
      refine (bind_ok (pointers_else base noStar)).trans ?_
      refine (bind_ok (attributes_else noKeyword)).trans ?_
      refine (bind_ok nested).trans ?_
      refine (peek_run _ _).trans ?_
      rcases front with kind | ⟨p, kind, -⟩ <;>
      · rw [kind]
        exact (bind_ok run).trans rfl

/-- A star in front of a declarator. -/
theorem Declared.pointer {name : Option String}
    (h : Declared scopes abstract levels ks (.pointer base) name ty)
    (noKeyword : ∀ {ks'}, NoKeyword ks' → NoKeyword (ks ++ ks')) :
    Declared scopes abstract levels (.punct .star :: ks) base name ty := by
  rintro s n ts tail same low kinds ends
  obtain ⟨place, ts, rfl, behind⟩ := exists_token kinds
  obtain ⟨d, run, declares⟩ := h s n ts tail same low behind ends
  refine ⟨d, ?_, declares⟩
  cases n with
  | zero => cases run
  | succ n =>
      have front : NoKeyword ((ts ++ tail).map Token.kind) := by
        rw [List.map_append, behind]
        exact noKeyword ends.noKeyword
      have passed := pointers_cons (s := s) base (t := ⟨.punct .star, place⟩) rfl
        (front_of_noKeyword front)
      change Parser.declarator (productions n) base abstract _ = _
      change Parser.declarator (productions n) (.pointer base) abstract _ = _ at run
      rw [Parser.declarator, bind_run] at run ⊢
      rw [List.cons_append, passed]
      exact run

/-- A declarator in parentheses that starts with a star, in front of suffixes. -/
theorem Declared.parens {name : Option String} {inner : Nat} {mid : CType} {ks' : List TokenKind}
    (h : Declared scopes abstract inner ks mid name ty) (balanced : BalancedKinds ks)
    (star : ∃ ks'', ks = .punct .star :: ks'') (suffixed : Suffixed scopes levels ks' base mid) :
    Declared scopes abstract (max levels inner + 1)
      (.punct .lparen :: (ks ++ [.punct .rparen]) ++ ks') base name ty := by
  rintro s n ts tail same low kinds ends
  obtain ⟨n, rfl⟩ : ∃ k, n = k + 1 := ⟨n - 1, by omega⟩
  obtain ⟨opening, ts, rfl, inside⟩ := exists_token kinds
  rw [List.append_eq, List.append_assoc] at inside
  obtain ⟨front, back, rfl, nested, closed⟩ := List.map_eq_append_iff.mp inside
  obtain ⟨closing, ts, rfl, behind⟩ := exists_token closed
  obtain ⟨params, outer⟩ := suffixed.reads s n ts tail same (by omega) behind ends
  obtain ⟨d, run, declares⟩ := h s n front (⟨.punct .rparen, closing⟩ :: (ts ++ tail)) same
    (by omega) nested (endsDeclarator_cons rfl _ (by decide))
  refine ⟨d, ?_, declares⟩
  rw [List.cons_append, List.append_assoc, List.cons_append]
  obtain ⟨ks'', rfl⟩ := star
  have nest : atNestedDeclarator (s.before (⟨.punct .lparen, opening⟩ ::
      (front ++ ⟨.punct .rparen, closing⟩ :: (ts ++ tail)))) =
        .ok true (s.before (⟨.punct .lparen, opening⟩ ::
          (front ++ ⟨.punct .rparen, closing⟩ :: (ts ++ tail)))) := by
    obtain ⟨place, front, rfl, -⟩ := exists_token nested
    rfl
  have skip (t : ParserState) : skipToClose .unbalancedDeclarator
      (t.before (front ++ ⟨.punct .rparen, closing⟩ :: (ts ++ tail))) =
        .ok () (t.before (ts ++ tail)) :=
    skipToClose_some (balanced.behindClose? nested rfl) _
  change Parser.declarator (productions n) base abstract _ = _
  refine (bind_ok (pointers_else base fun same => by cases same)).trans ?_
  refine (bind_ok (attributes_else fun kw same => by cases same)).trans ?_
  refine (bind_ok nest).trans ?_
  refine (bind_ok (rfl : next _ = .ok _ (s.before (front ++ _)))).trans ?_
  refine (get_bind _ _).trans ?_
  refine (bind_ok (skip s)).trans ?_
  refine (bind_ok outer).trans ?_
  refine (get_bind _ _).trans ?_
  have inside (t : ParserState) :
      (modify fun t => { t with rest := front ++ ⟨.punct .rparen, closing⟩ :: (ts ++ tail) } :
        Parser PUnit) t = .ok ⟨⟩ (t.before (front ++ ⟨.punct .rparen, closing⟩ :: (ts ++ tail))) :=
    rfl
  refine (bind_ok (inside _)).trans ?_
  exact (bind_ok run).trans rfl

end Parser

end LiveC
