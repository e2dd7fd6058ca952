import LiveC.Parser.Expression
import LiveC.Proofs.ParserState

/-!
Every production of an expression hands on well-typed expressions that are ready for code
generation, as long as the productions one level deeper do.
-/

namespace LiveC

/-- A parameter list belongs to the function type that it is part of. The name is a token, and
a parenthesis behind it opens a parameter list. -/
structure Declarator.Parsed (tokens : List Token) (d : Declarator) : Prop where
  declared : d.ty.Declared
  params : ∀ ps ∈ d.params, ∃ ret v u, d.ty = .function ret (ps.map Param.ty) v u
  name : ∀ name loc, d.name = some (name, loc) → ∃ before t after,
    tokens = before ++ t :: after ∧ t.kind = .ident name ∧ t.loc = loc ∧
      (after.head?.map Token.kind = some (.punct .lparen) → d.params.isSome = true)

theorem Declarator.Parsed.isWord {tokens : List Token} {d : Declarator} (h : d.Parsed tokens)
    {name : String} {loc : Location} (named : d.name = some (name, loc)) : IsWord tokens name := by
  obtain ⟨before, t, after, rfl, kind, -⟩ := h.name name loc named
  exact ⟨t, List.mem_append_right _ (.head _), kind⟩

/-- An integer of a static object is a constant of a type of its size, and a string literal that an
address points to is one of the unit. -/
structure InitItem.Parsed (tokens : List Token) (strings : Nat) (i : InitItem) : Prop where
  int : ∀ v size, i.value = .int v size → ∃ t : IntType, t.size = size ∧ canonical tokens t v
  string : ∀ id addend, i.value = .address (.str id) addend → id < strings

def InitStore.Parsed (σ : ParserScope) (s : InitStore) : Prop :=
  s.value.Parsed σ ∧ s.value.ty.isScalar = true

/-- An initialiser changes the type of an object only to give it a length. -/
def CType.Completes (ty result : CType) : Prop := ty.isComplete = true → result = ty

/-- The size of an object of the type is known and is not out of range. -/
def CType.Sized (ty : CType) : Prop := ty.isComplete = true ∧ ty.size < Word.modulus - 1

/-- The productions hand on what they should wherever they are used. -/
structure Productions.Sound (g : Productions) : Prop where
  assignment {σ : ParserScope} {H : Prop} : Parser.Keeps σ.course H g.assignment (Expr.Parsed σ)
  conditional {σ : ParserScope} {H : Prop} : Parser.Keeps σ.course H g.conditional (Expr.Parsed σ)
  cast {σ : ParserScope} {H : Prop} : Parser.Keeps σ.course H g.cast (Expr.Parsed σ)
  unary {σ : ParserScope} {H : Prop} : Parser.Keeps σ.course H g.unary (Expr.Parsed σ)
  declarator {σ : ParserScope} {H : Prop} {base : CType} (h : H → base.Declared)
    (abstract : Bool) : Parser.Keeps σ.course H (g.declarator base abstract)
      (Declarator.Parsed σ.tokens)
  suffixes {σ : ParserScope} {H : Prop} {base : CType} (h : H → base.Declared) :
    Parser.Keeps σ.course H (g.suffixes base) fun r => r.1.Declared ∧
      ∀ ps ∈ r.2, ∃ ret v u, r.1 = .function ret (ps.map Param.ty) v u
  parenthesised {base : CType} {s t : ParserState} {r : CType × Option (List Param)} :
    s.rest.head?.map Token.kind = some (.punct .lparen) → g.suffixes base s = .ok r t →
      r.2.isSome = true
  staticInit {σ : ParserScope} {H : Prop} {ty : CType} (h : H → ty.Declared) (offset : Nat) :
    Parser.Keeps σ.course H (g.staticInit ty offset) fun r =>
      r.1.IsStored σ.tokens ∧ ty.Completes r.1 ∧
        ∀ i ∈ r.2, i.Parsed σ.tokens σ.strings ∧ (r.1.Sized → i.Within offset (offset + r.1.size))
  localInit {σ : ParserScope} {H : Prop} {ty : CType} (h : H → ty.Declared) (offset : Nat) :
    Parser.Keeps σ.course H (g.localInit ty offset) fun r =>
      r.1.IsStored σ.tokens ∧ ty.Completes r.1 ∧ ∀ s ∈ r.2, s.Parsed σ
  statement {σ : ParserScope} {H : Prop} : Parser.Keeps σ.course H g.statement (Stmt.Parsed σ)

namespace Expr

open Typing

variable {σ : ParserScope} {e l r target value : Expr}

theorem Parsed.rvalue (h : e.Parsed σ) : e.rvalue.Parsed σ :=
  ⟨rvalue_wellTyped h.1, rvalue_prepared h.2⟩

theorem Parsed.comma (hl : l.Parsed σ) (hr : r.Parsed σ) (loc : Location) :
    (Expr.comma ⟨r.rvalue.ty, loc⟩ l r.rvalue).Parsed σ :=
  ⟨.two hr.rvalue.1.wellFormed ⟨rfl, rvalue_decayed r⟩ rfl hl.1 hr.rvalue.1,
    .two ⟨trivial, hr.rvalue.2.bounded, nofun, trivial⟩ rfl hl.2 hr.rvalue.2⟩

theorem Parsed.apply (hl : l.Parsed σ) (hr : r.Parsed σ) (op : Operator) (loc : Location) :
    (op.apply l r loc).Yields (Parsed σ) := by
  cases op with
  | logic op => exact (logical_yields σ.context_closed hl.1 hr.1 op loc).and (logical_prepared hl.2 hr.2 op loc)
  | compare op =>
      exact (comparison_yields σ.context_closed hl.rvalue.1 hr.rvalue.1 op loc).and
        (comparison_prepared hl.rvalue.2 hr.rvalue.2 op loc)
  | arith op =>
      exact (arithmetic_yields σ.context_closed hl.rvalue.1 hr.rvalue.1 op loc).and
        (arithmetic_prepared hl.rvalue.2 hr.rvalue.2 op loc)

theorem Parsed.condition (h : e.Parsed σ) : e.condition.Yields (ParsedCondition σ) :=
  (condition_yields σ.context_closed h.1).and (condition_prepared h.2)

theorem Parsed.assignConvert (h : e.Parsed σ) {ty : CType} (object : ty.IsObject) (loc : Location) :
    (e.assignConvert ty loc).Yields fun r => r.Parsed σ ∧ r.ty = ty ∧ ty.isScalar = true :=
  ((assignConvert_yields σ.context_closed h.1 object.1 loc).and
    (assignConvert_prepared h.2 object.2.value loc)).mono fun _ h => ⟨⟨h.1.1, h.2⟩, h.1.2⟩

/-- What `++` and `--` make of an operand. -/
theorem Parsed.step (h : e.Parsed σ) (increment before : Bool) (loc : Location) :
    (e.stepNode increment before loc).Yields (Parsed σ) :=
  (stepNode_yields h.1 increment before loc).and (stepNode_prepared h.2 increment before loc)

end Expr

namespace Parser

variable {σ : ParserScope} {H : Prop} {g : Productions}

theorem bounded_keeps {e : Expr} {P : Expr → Prop} (h : H → P e) : Keeps σ.course H (bounded e) P :=
  .ite (fun _ => .throw) fun _ => .pure h

theorem peekPunct?_keeps : Keeps σ.course H peekPunct? fun _ => True := by
  refine peek_keeps.skip fun t => ?_
  split <;> exact .done

/-! ### Binary operators and assignments -/

theorem expression_keeps (sound : g.Sound) : Keeps σ.course H (expression g) (Expr.Parsed σ) := by
  refine sound.assignment.bind fun e => .iterate (fun l => ?_) e
  refine (check_keeps _).skip fun _ => .ite (fun _ => ?_) fun _ => .pure And.right
  refine next_keeps.skip fun t => sound.assignment.bind fun r => ?_
  refine (bounded_keeps fun pre => ?_).bind fun e => .pure And.right
  exact pre.1.2.comma pre.2 t.loc

theorem binary_keeps (sound : g.Sound) (n : Nat) :
    Keeps σ.course H (binary g n) (Expr.Parsed σ) := by
  induction n generalizing H with
  | zero => exact sound.cast.bind fun e => bounded_keeps And.right
  | succ n ih =>
      refine ih.bind fun e => .iterate (fun l => ?_) e
      refine peekPunct?_keeps.skip fun p => ?_
      split
      case h_1 op _ =>
        refine .ite (fun _ => ?_) fun _ => .pure And.right
        refine next_keeps.skip fun t => ih.bind fun r => ?_
        refine (typed_keeps fun pre => pre.1.2.apply pre.2 op t.loc).bind fun e => ?_
        exact (bounded_keeps And.right).bind fun e => .pure And.right
      case h_2 => exact .pure And.right

theorem conditional_keeps (sound : g.Sound) :
    Keeps σ.course H (conditional g) (Expr.Parsed σ) := by
  refine (binary_keeps sound _).bind fun c => (check_keeps _).skip fun _ =>
    .ite (fun _ => ?_) fun _ => .pure And.right
  refine next_keeps.skip fun t => (expression_keeps sound).bind fun yes => ?_
  refine (expect_keeps _).skip fun _ => sound.conditional.bind fun no => typed_keeps fun pre => ?_
  obtain ⟨⟨⟨-, hc⟩, hy⟩, hn⟩ := pre
  exact (Expr.conditional_yields σ.context_closed hc.1 hy.1 hn.1 t.loc).and
    (Expr.conditional_prepared hc.2 hy.2 hn.2 t.loc)

theorem assignment_keeps (sound : g.Sound) :
    Keeps σ.course H (assignment g) (Expr.Parsed σ) := by
  refine (conditional_keeps sound).bind fun target => peekPunct?_keeps.skip fun p => ?_
  split
  case h_1 => exact .pure And.right
  case h_2 op? _ =>
    refine next_keeps.skip fun t => ?_
    refine (typed_keeps fun _ => Expr.requireAssignable_yields target t.loc).bind fun _ => ?_
    refine sound.assignment.bind fun value => ?_
    cases op? with
    | none =>
        refine typed_keeps fun ⟨⟨⟨_, ht⟩, lvalue⟩, hv⟩ => ?_
        exact (Expr.assignment_yields σ.context_closed ht.1 hv.1 lvalue t.loc).and
          (Expr.assignment_prepared ht.2 hv.2 t.loc)
    | some op =>
        refine typed_keeps fun ⟨⟨⟨_, ht⟩, lvalue⟩, hv⟩ => ?_
        exact (Expr.opAssignment_yields σ.context_closed ht.1 hv.1 lvalue op t.loc).and
          (Expr.opAssignment_prepared ht.2 hv.2 op t.loc)

/-! ### Type names -/

theorem typeName_keeps (sound : g.Sound) : Keeps σ.course H (typeName g) CType.Declared := by
  refine loc_keeps.skip fun start => declSpecifiers_keeps.bind fun spec => ?_
  refine .guard fun _ => (sound.declarator And.right true).bind fun d => ?_
  split
  · exact .throw
  · exact .pure fun pre => pre.2.declared

theorem atTypeName_keeps : Keeps σ.course H atTypeName fun _ => True :=
  (check_keeps _).skip fun _ => .ite
    (fun _ => peekSecond_keeps.skip fun t => startsType_keeps t) fun _ => .done

theorem sizeOf_parsed (ty : CType) (loc : Location) :
    (Expr.sizeOf ty loc).Yields (Expr.Parsed σ) :=
  (Expr.sizeOf_yields σ.context_closed ty loc).and (Expr.sizeOf_prepared ty loc)

theorem sizeofOperand_keeps (sound : g.Sound) (loc : Location) :
    Keeps σ.course H (sizeofOperand g loc) (Expr.Parsed σ) := by
  refine atTypeName_keeps.skip fun _ => .ite (fun _ => ?_) fun _ => ?_
  · refine next_keeps.skip fun _ => (typeName_keeps sound).skip fun ty => ?_
    exact (expect_keeps _).skip fun _ => typed_keeps fun _ => sizeOf_parsed ty loc
  · exact sound.unary.skip fun e => typed_keeps fun _ => sizeOf_parsed e.ty loc

/-! ### Calls -/

theorem arguments_keeps (sound : g.Sound) :
    Keeps σ.course H (arguments g) fun args => ∀ a ∈ args, a.2.Parsed σ := by
  refine (eat_keeps _).skip fun _ => .ite (fun _ => .pure fun _ => nofun) fun _ => ?_
  refine (Keeps.iterate (fun args => ?_) []).pre fun h => ⟨h, nofun⟩
  refine loc_keeps.skip fun loc => sound.assignment.bind fun e => ?_
  have extended (pre : (H ∧ ∀ a ∈ args, a.2.Parsed σ) ∧ e.Parsed σ) :
      ∀ a ∈ args ++ [(loc, e)], a.2.Parsed σ :=
    List.forall_mem_append.mpr ⟨pre.1.2, List.forall_mem_singleton.mpr pre.2⟩
  refine (eat_keeps _).skip fun _ => .ite (fun _ => .pure extended) fun _ => ?_
  exact (expect_keeps _).skip fun _ => .pure extended

theorem call_keeps (sound : g.Sound) {callee : Expr} (h : H → callee.Parsed σ) (loc : Location) :
    Keeps σ.course H (call g callee loc) (Expr.Parsed σ) := by
  refine (typed_keeps fun pre => (Expr.callee_yields (h pre).1 loc).and
    (Expr.callee_prepared (h pre).2 loc)).bind fun c => ?_
  refine (arguments_keeps sound).bind fun args => typed_keeps fun ⟨⟨_, hc⟩, ha⟩ => ?_
  exact (Expr.callNode_yields σ.context_closed hc.1 (fun a member => (ha a member).1) loc).and
    (Expr.callNode_prepared hc.2 (fun a member => (ha a member).2) loc)

/-! ### Primary expressions -/

/-- A string literal takes the next number. -/
theorem addString_keeps (bytes : List UInt8) :
    Keeps σ.course H (addString bytes) fun id => id < σ.strings := by
  intro s
  refine ⟨⟨⟨List.prefix_refl _, rfl, ?_⟩, .refl _, rfl⟩, fun within _ valid => ⟨?_, ?_⟩⟩
  · simp only [List.length_append]
    omega
  · refine ⟨⟨valid.rest, valid.names, valid.symbols, valid.locals, valid.returns, valid.depth,
      ⟨valid.unit.functions, valid.unit.globals⟩⟩, fun tracked => ?_, fun tracked =>
        ⟨(valid.spelled tracked).symbols, (valid.spelled tracked).uses⟩⟩
    have h := valid.recorded tracked
    exact ⟨h.functions, h.functionNames, h.current, h.globals, h.globalNames, h.bounded,
      h.reserved, h.contained, h.uses⟩
  · have le := within.1.2.2
    simp only [List.length_append, List.length_singleton] at le
    omega

theorem adjacentStrings_keeps (bytes : List UInt8) :
    Keeps σ.course H (adjacentStrings bytes) fun _ => True := by
  refine (Keeps.iterate (I := fun _ => True) (fun _ => ?_) bytes).pre fun h => ⟨h, trivial⟩
  refine peek_keeps.skip fun t => ?_
  split
  · exact next_keeps.skip fun _ => .done
  · exact .done

theorem declareFunction_keeps {ty : CType} (name : String) (isStatic : Bool) (loc : Location)
    (isFunction : ty.isFunction = true) (h : H → ty.IsObject) (word : H → IsWord σ.tokens name) :
    Keeps σ.course H (declareFunction name ty isStatic loc) fun _ => σ.kinds name true := by
  intro s
  have declare {defined hidden : Bool} (same : IsPlain name →
      GlobalSymbol.definition ⟨ty, defined, hidden⟩ = s.unit.symbols.definition? name)
      (known : ∀ old, s.unit.symbols.find? name = some old → old.ty.isFunction = true) :
      Ends σ.course H (fun _ => σ.kinds name true) s (setSymbol name ⟨ty, defined, hidden⟩ s) := by
    refine (setSymbol_ends h (fun pre _ => word pre) (.insert same ?_)).mono id
      fun _ _ kind => isFunction ▸ kind
    rintro _ - ⟨old, found, rfl⟩
    exact isFunction.trans (known old found).symm
  unfold declareFunction
  rw [findSymbol?_bind]
  cases found : s.unit.symbols.find? name with
  | none =>
      refine declare (fun _ => ?_) (fun old other => absurd (found.symm.trans other) nofun)
      rw [SymbolTable.definition?, found]
      rfl
  | some old =>
      dsimp only
      cases function : old.ty.signature? with
      | none => exact Keeps.throw s
      | some known =>
          cases ty.signature? with
          | none => exact Keeps.throw s
          | some signature =>
              refine .guard fun _ => .ite (fun replaced => ?_) fun _ => ?_
              · have undefined : old.defined = false := by
                  simpa using (Bool.and_eq_true_iff.mp replaced).1
                refine declare (fun _ => ?_) fun other same => ?_
                · rw [SymbolTable.definition?, found]
                  simp [GlobalSymbol.definition, undefined]
                · cases found.symm.trans same
                  exact Expr.isFunction_of_signature? function
              · exact ⟨σ.course.refl s, fun within pre valid => ⟨valid, within.2 name true (fun _ =>
                  ⟨old, found, Expr.isFunction_of_signature? function⟩) fun _ _ => word pre⟩⟩

/-- The implicit declaration of a function. -/
theorem implicitFunction_isObject :
    (CType.function (.int .int) [] false true).IsObject :=
  ⟨⟨rfl, rfl, trivial, trivial⟩, trivial, trivial⟩

theorem global_parsed {ty : CType} {name : String} (object : ty.IsObject)
    (kind : σ.kinds name ty.isFunction) (loc : Location) :
    (Expr.global ⟨ty, loc⟩ name).Parsed σ :=
  ⟨.leaf object.1 trivial rfl, .leaf ⟨kind, object.2.value, fun _ => object.2, trivial⟩ rfl⟩

theorem identifier_keeps (name : String) (word : H → IsWord σ.tokens name) (loc : Location) :
    Keeps σ.course H (identifier name loc) (Expr.Parsed σ) := by
  refine (find?_keeps name).skip fun b => ?_
  split
  case h_1 id =>
    refine Keeps.get.bind fun s => ?_
    split
    case h_1 v found =>
      refine .pure fun ⟨_, within, valid⟩ => ?_
      obtain ⟨member, rfl⟩ := List.getElem?_eq_some_iff.mp found
      have object := (valid.locals _ (List.getElem_mem member)).object
      have final : σ.locals[id]? = some s.locals[id] := by
        obtain ⟨others, all⟩ := within.1.1
        rw [← all, List.getElem?_append_left member, found]
      refine ⟨.leaf object.1 ⟨_, final, rfl⟩ rfl, ?_⟩
      exact .leaf ⟨trivial, object.2.value, fun _ => object.2, trivial⟩ rfl
    case h_2 => exact .throw
  case h_2 symbol =>
    refine (findSymbol?_keeps symbol).bind fun s => ?_
    split
    case h_1 s => exact .pure fun pre => global_parsed (pre.2 s rfl).1 (pre.2 s rfl).2 loc
    case h_2 => exact .throw
  case h_3 => exact .throw
  case h_4 =>
    refine (check_keeps _).skip fun _ => .ite (fun _ => ?_) fun _ => .throw
    refine (warn_keeps _ _).skip fun _ => ?_
    refine (declareFunction_keeps name false loc rfl (fun _ => implicitFunction_isObject) word).bind
      fun _ => ?_
    refine (bindFile_keeps (b := .global name) name fun _ => trivial).skip fun _ => .pure fun pre => ?_
    exact global_parsed implicitFunction_isObject pre.2 loc

/-- A number that a type can represent is canonical in it. -/
theorem wrap_of_fits {t : IntType} {value : Nat} (h : t.fits value = true) :
    t.wrap (BitVec.ofNat 64 value) = BitVec.ofNat 64 value := by
  have inRange : t.Represents value := by
    obtain ⟨w, s⟩ := t
    revert h
    cases w <;> cases s <;>
      simp [IntType.fits, IntType.maxValue, IntType.Represents, Width.bits, Width.bytes] <;> omega
  rw [← BitVec.ofInt_natCast, IntType.wrap_ofInt, IntType.reduce_of_represents inRange]

/-- The type of a constant can represent it, or is as wide as a word. -/
theorem wrap_ofLiteral (value : Nat) (unsigned long decimal : Bool) :
    (IntType.ofLiteral value unsigned long decimal).wrap (BitVec.ofNat 64 value) =
      BitVec.ofNat 64 value := by
  unfold IntType.ofLiteral
  cases found : (IntType.literalCandidates unsigned long decimal).find? (·.fits value) with
  | none => exact IntType.wrap_w64 false _
  | some t =>
      have fits := List.find?_some found
      exact wrap_of_fits fits

theorem int_parsed {n : Note} {t : IntType} {v : Word} (ty : n.ty = .int t)
    (h : canonical σ.tokens t v) : (Expr.int n v).Parsed σ :=
  ⟨.leaf (by rw [Expr.ty, Expr.note, ty]; trivial) (.inr ⟨t, ty, h⟩) rfl,
    Expr.int_prepared (by rw [ty]; trivial)⟩

theorem primary_keeps (sound : g.Sound) : Keeps σ.course H (primary g) (Expr.Parsed σ) := by
  refine next_keeps.bind fun t => ?_
  dsimp only
  split
  case h_1 value unsigned long decimal _ =>
    have literal : (Expr.int ⟨.int (IntType.ofLiteral value unsigned long decimal), t.loc⟩
        (BitVec.ofNat 64 value)).Parsed σ :=
      int_parsed rfl fun _ => wrap_ofLiteral value unsigned long decimal
    exact .ite (fun _ => (warn_keeps _ _).skip fun _ => .pure fun _ => literal) fun _ =>
      .pure fun _ => literal
  case h_2 => exact .pure fun _ => ⟨.leaf trivial rfl rfl,
      .leaf ⟨trivial, trivial, fun h => absurd h Bool.false_ne_true, trivial⟩ rfl⟩
  case h_3 value kind =>
    refine .pure fun pre => int_parsed rfl fun bytes => ?_
    have isByte : t.kind.IsByte := by
      rcases pre.2 with member | eof
      · exact bytes t member
      · rw [eof]
        trivial
    rw [kind] at isByte
    have inRange : IntType.int.Represents value := by
      simp only [TokenKind.IsByte] at isByte
      constructor <;> simp [IntType.int, Width.bits, Width.bytes] <;> omega
    rw [IntType.wrap_ofInt, IntType.reduce_of_represents inRange]
  case h_4 =>
    refine (adjacentStrings_keeps _).skip fun bytes => (addString_keeps _).bind fun id => ?_
    exact .pure fun pre => ⟨.leaf trivial ⟨_, rfl⟩ rfl,
      .leaf ⟨trivial, trivial, fun h => absurd h Bool.false_ne_true, pre.2⟩ rfl⟩
  case h_5 =>
    exact (expression_keeps sound).bind fun e => (expect_keeps _).skip fun _ => .pure And.right
  case h_6 name kind => exact identifier_keeps name (fun pre => pre.2.isWord kind) _
  case h_7 => exact .throw

/-! ### Prefix and postfix operators -/

theorem postfixed_keeps (sound : g.Sound) : Keeps σ.course H (postfixed g) (Expr.Parsed σ) := by
  refine (primary_keeps sound).bind fun e => .iterate (fun e => ?_) e
  refine peek_keeps.skip fun t => ?_
  split
  case h_1 =>
    refine next_keeps.skip fun _ => (expression_keeps sound).bind fun index => ?_
    refine (expect_keeps _).skip fun _ => (typed_keeps fun pre => ?_).bind fun e => .pure And.right
    exact (Expr.subscript_yields σ.context_closed pre.1.2.1 pre.2.1 t.loc).and
      (Expr.subscript_prepared pre.1.2.2 pre.2.2 t.loc)
  case h_2 =>
    refine next_keeps.skip fun _ => ?_
    exact (call_keeps sound (fun pre => pre.2) t.loc).bind fun e => .pure And.right
  case h_3 | h_4 =>
    refine next_keeps.skip fun _ => (typed_keeps fun pre => ?_).bind fun e => .pure And.right
    exact pre.2.step _ false t.loc
  case h_5 | h_6 => exact .throw
  case h_7 => exact .pure And.right

/-- A prefix operator and its operand. -/
theorem prefixed_keeps {operand : Parser Expr} {f : Expr → Location → Typing Expr}
    (h : Keeps σ.course H operand (Expr.Parsed σ))
    (hf : ∀ e loc, e.Parsed σ → (f e loc).Yields (Expr.Parsed σ)) (loc : Location) :
    Keeps σ.course H (do
      let _ ← next
      typed (f (← operand) loc)) (Expr.Parsed σ) :=
  next_keeps.skip fun _ => h.bind fun e => typed_keeps fun pre => hf e loc pre.2

theorem unary_keeps (sound : g.Sound) : Keeps σ.course H (unary g) (Expr.Parsed σ) := by
  have closed := σ.context_closed
  refine peek_keeps.skip fun t => ?_
  dsimp only
  split
  case h_1 => exact next_keeps.skip fun _ => sizeofOperand_keeps sound t.loc
  case h_2 | h_3 => exact prefixed_keeps sound.unary (fun e loc h => h.step _ true loc) t.loc
  case h_4 =>
    exact prefixed_keeps sound.cast (fun e loc h => (Expr.address_yields h.1 loc).and
      (Expr.address_prepared h.1 h.2 loc)) t.loc
  case h_5 =>
    exact prefixed_keeps sound.cast (fun e loc h => (Expr.indirection_yields h.1 loc).and
      (Expr.indirection_prepared h.2 loc)) t.loc
  case h_6 =>
    exact prefixed_keeps sound.cast (fun e loc h => (Expr.plus_yields closed h.1 loc).and
      (Expr.plus_prepared h.2 loc)) t.loc
  case h_7 =>
    exact prefixed_keeps sound.cast (fun e loc h => (Expr.negation_yields closed h.1 loc).and
      (Expr.negation_prepared h.2 loc)) t.loc
  case h_8 =>
    exact prefixed_keeps sound.cast (fun e loc h => (Expr.complement_yields closed h.1 loc).and
      (Expr.complement_prepared h.2 loc)) t.loc
  case h_9 =>
    exact prefixed_keeps sound.cast (fun e loc h => (Expr.logicalNot_yields closed h.1 loc).and
      (Expr.logicalNot_prepared h.2 loc)) t.loc
  case h_10 => exact postfixed_keeps sound

theorem cast_keeps (sound : g.Sound) : Keeps σ.course H (cast g) (Expr.Parsed σ) := by
  refine atTypeName_keeps.skip fun _ => .ite (fun _ => ?_) fun _ => unary_keeps sound
  refine next_keeps.skip fun t => (typeName_keeps sound).bind fun ty => ?_
  refine (expect_keeps _).skip fun _ => sound.cast.bind fun e => typed_keeps fun pre => ?_
  exact (Expr.castTo_yields σ.context_closed pre.2.1 pre.1.2.1 t.loc).and
    (Expr.castTo_prepared pre.2.2 pre.1.2.2.value t.loc)

end Parser
end LiveC
