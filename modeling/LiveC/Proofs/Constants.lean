import LiveC.Proofs.IntegerCode
import LiveC.Proofs.Readiness

/-!
Expressions in which nothing but integer constants occurs. Their values depend neither on
memory nor on variables, and what the typing functions make of constants has the value of
the node that it stands for.
-/

namespace LiveC

namespace LogicOp

/-- The value of the left operand is that of the whole. -/
def Decided (op : LogicOp) (a : Int) : Prop :=
  match op with
  | and => a = 0
  | or => a ≠ 0

/-- The value that does not need the right operand. -/
def decision : LogicOp → Int
  | and => 0
  | or => 1

variable {op : LogicOp} {a : Int}

theorem apply_decided (h : op.Decided a) (c : Bool) :
    (if op.apply (a != 0) c then 1 else 0 : Int) = op.decision := by
  cases op with
  | and =>
      obtain rfl := h
      rfl
  | or =>
      have nonzero : (a != 0) = true := bne_iff_ne.mpr h
      simp only [apply, nonzero, Bool.true_or, if_true, decision]

theorem apply_undecided (h : ¬op.Decided a) (b : Int) :
    (if op.apply (a != 0) (b != 0) then 1 else 0 : Int) = if b = 0 then 0 else 1 := by
  have right : op.apply (a != 0) (b != 0) = (b != 0) := by
    cases op with
    | and =>
        have nonzero : (a != 0) = true := bne_iff_ne.mpr h
        simp only [apply, nonzero, Bool.true_and]
    | or =>
        obtain rfl := Decidable.not_not.mp h
        simp only [apply, bne_self_eq_false, Bool.false_or]
  rw [right]
  by_cases zero : b = 0
  · subst zero
    rfl
  · rw [if_pos (bne_iff_ne.mpr zero), if_neg zero]

end LogicOp

/-! ### Nodes of constant expressions -/

/-- No variables occur in constants, and their words are canonical. -/
def TypingContext.canonical : TypingContext := ⟨fun t v => t.wrap v = v, fun _ _ => False⟩

namespace Expr

/-- The node is of a kind that constant expressions are built from. -/
def ConstantNode (e : Expr) : Prop :=
  e.ty.isInteger = true ∧ e.Rule .canonical ∧
    match e with
    | int .. | unary .. | binary .. | compare .. | logic .. | cond .. | cast .. => True
    | _ => False

/-- An expression of an integer type in which nothing but constants occurs. -/
structure IsConstant (t : IntType) (e : Expr) : Prop where
  ty : e.ty = .int t
  nodes : e.Everywhere ConstantNode

variable {t k : IntType} {e l r c : Expr} {n : Note} {loc : Location} {a b : Int} {v : Word}

namespace IsConstant

theorem int (h : t.wrap v = v) : IsConstant t (.int ⟨.int t, loc⟩ v) :=
  ⟨rfl, .leaf ⟨rfl, .inr ⟨t, rfl, h⟩, trivial⟩ rfl⟩

theorem unary (h : IsConstant t e) (op : UnaryOp) : IsConstant t (.unary ⟨.int t, loc⟩ op e) :=
  ⟨rfl, .one ⟨rfl, ⟨h.ty, by cases op <;> rfl⟩, trivial⟩ rfl h.nodes⟩

theorem binary (hl : IsConstant t l) (hr : IsConstant t r) (op : BinaryOp) :
    IsConstant t (.binary ⟨.int t, loc⟩ op l r) :=
  ⟨rfl, .two ⟨rfl, ⟨hl.ty, .inl ⟨hr.ty, by cases op <;> rfl⟩⟩, trivial⟩ rfl hl.nodes hr.nodes⟩

theorem compare (hl : IsConstant t l) (hr : IsConstant t r) (op : CompareOp) :
    IsConstant .int (.compare ⟨.int .int, loc⟩ op l r) := by
  have arithmetic : l.ty.isArithmetic = true := by
    rw [hl.ty]
    rfl
  exact ⟨rfl, .two ⟨rfl, ⟨rfl, .inl ⟨hl.ty.trans hr.ty.symm, arithmetic⟩⟩, trivial⟩ rfl hl.nodes
    hr.nodes⟩

theorem logic (hl : IsConstant .int l) (hr : IsConstant .int r) (condL : l.IsCondition)
    (condR : r.IsCondition) (op : LogicOp) : IsConstant .int (.logic ⟨.int .int, loc⟩ op l r) :=
  ⟨rfl, .two ⟨rfl, ⟨rfl, condL, condR⟩, trivial⟩ rfl hl.nodes hr.nodes⟩

theorem cond (hc : IsConstant .int c) (condC : c.IsCondition) (hl : IsConstant t l)
    (hr : IsConstant t r) : IsConstant t (.cond ⟨.int t, loc⟩ c l r) :=
  ⟨rfl, .three ⟨rfl, ⟨condC, hl.ty, hr.ty, .inl rfl⟩, trivial⟩ rfl hc.nodes hl.nodes hr.nodes⟩

theorem cast (h : IsConstant t e) (k : IntType) : IsConstant k (.cast ⟨.int k, loc⟩ e) := by
  have castable : castable e.ty (.int k) = true := by
    rw [h.ty]
    rfl
  exact ⟨rfl, .one ⟨rfl, rule_cast castable, trivial⟩ rfl h.nodes⟩

theorem withLoc (h : IsConstant t e) (loc : Location) : IsConstant t (e.withLoc loc) := by
  refine ⟨(ty_withNote e _).trans h.ty, ?_⟩
  have nodes := h.nodes
  cases e <;> exact .node nodes.here fun part member => nodes.part member

theorem rvalue (h : IsConstant t e) : e.rvalue = e := by
  unfold Expr.rvalue
  rw [h.ty]

/-- A constant is converted at once, and any other expression by a node. -/
theorem convert_cases (h : IsConstant t e) (k : IntType) :
    (t = k ∧ e.convert (.int k) = e) ∨
      (∃ n v, e = .int n v ∧ e.convert (.int k) = .int ⟨.int k, e.loc⟩ (k.wrap v)) ∨
      e.convert (.int k) = .cast ⟨.int k, e.loc⟩ e := by
  unfold Expr.convert
  by_cases same : e.ty = .int k
  · exact .inl ⟨CType.int.inj (h.ty.symm.trans same), if_pos same⟩
  · simp only [if_neg same]
    cases e with
    | int n v => exact .inr (.inl ⟨n, v, rfl, rfl⟩)
    | float n v => exact h.nodes.here.2.2.elim
    | _ => exact .inr (.inr rfl)

theorem convert (h : IsConstant t e) (k : IntType) : IsConstant k (e.convert (.int k)) := by
  obtain ⟨rfl, same⟩ | ⟨n, v, -, literal⟩ | node := h.convert_cases k
  · rwa [same]
  · exact literal ▸ .int (IntType.wrap_wrap k v)
  · exact node ▸ h.cast k

end IsConstant

/-! ### Values -/

instance : Inhabited Surroundings :=
  ⟨⟨fun _ => 0, fun _ => 0, fun _ => 0, fun _ => false⟩⟩

/-- Wherever the expression is evaluated it has the same outcome and changes nothing. -/
def Evaluates (e : Expr) (x : Except Undefined Int) : Prop :=
  ∀ (s : Surroundings) (memory : Memory), s.value e memory = x.map (·, memory)

variable {x y z : Except Undefined Int}

namespace Evaluates

theorem bind {α : Type} (h : e.Evaluates x) (f : Int → Evaluation α) (s : Surroundings)
    (memory : Memory) : (s.value e >>= f) memory = x >>= fun a => f a memory := by
  cases x with
  | error u => simp only [Bind.bind, StateT.bind, h s memory]; rfl
  | ok a => exact bind_of_ok (h s memory)

theorem ok_unique (h : e.Evaluates (.ok a)) (h' : e.Evaluates (.ok b)) : a = b := by
  have same := (h default default).symm.trans (h' default default)
  cases same
  rfl

theorem int (n : Note) (ty : n.ty = .int t) (v : Word) : (int n v).Evaluates (.ok (t.value v)) := by
  intro s memory
  simp only [Surroundings.value, ty]
  rfl

theorem ofInt (n : Note) (ty : n.ty = .int t) (h : t.Represents a) :
    (Expr.int n (BitVec.ofInt 64 a)).Evaluates (.ok a) := by
  have outcome := Evaluates.int n ty (BitVec.ofInt 64 a)
  rwa [IntType.value_ofInt h] at outcome

/-- The word of a literal is that of its value. -/
theorem eq_ofInt (h : (Expr.int n v).Evaluates (.ok a)) (ty : n.ty = .int t) :
    v = BitVec.ofInt 64 a := by
  rw [h.ok_unique (.int n ty v), IntType.ofInt_value]

theorem zero_or_one (h : e.Evaluates (.ok a)) (cond : e.IsCondition) : a = 0 ∨ a = 1 :=
  Lowering.value_of_isCondition cond (h default default)

theorem cast (h : e.Evaluates x) :
    (cast ⟨.int k, loc⟩ e).Evaluates (do return k.reduce (← x)) := by
  intro s memory
  rw [Surroundings.value, h.bind]
  cases x <;> rfl

theorem unary (h : e.Evaluates x) (op : UnaryOp) :
    (unary ⟨.int t, loc⟩ op e).Evaluates (do return t.reduce (op.apply (← x))) := by
  intro s memory
  rw [Surroundings.value, h.bind]
  cases x <;> rfl

theorem binary (hl : l.Evaluates x) (hr : r.Evaluates y) (op : BinaryOp) :
    (binary ⟨.int t, loc⟩ op l r).Evaluates do
      let a ← x
      let b ← y
      return t.reduce (← op.apply a b) := by
  intro s memory
  rw [Surroundings.value, hl.bind]
  simp only [hr.bind]
  cases x with
  | error => rfl
  | ok a =>
      cases y with
      | error => rfl
      | ok b =>
          simp only [Bind.bind, Except.bind]
          cases op.apply a b <;> rfl

theorem compare (hl : l.Evaluates x) (hr : r.Evaluates y) (op : CompareOp) :
    (compare ⟨.int .int, loc⟩ op l r).Evaluates do
      let a ← x
      let b ← y
      return if op.holds (Ord.compare a b) then 1 else 0 := by
  intro s memory
  rw [Surroundings.value, hl.bind]
  simp only [hr.bind]
  cases x with
  | error => rfl
  | ok a => cases y <;> rfl

theorem logic_error {u : Undefined} (h : l.Evaluates (.error u)) (op : LogicOp) (r : Expr) :
    (logic n op l r).Evaluates (.error u) := by
  intro s memory
  cases op <;>
  · rw [Surroundings.value, h.bind]
    rfl

theorem logic_decided {op : LogicOp} (h : l.Evaluates (.ok a)) (decided : op.Decided a)
    (r : Expr) : (logic n op l r).Evaluates (.ok op.decision) := by
  intro s memory
  cases op <;>
  · rw [Surroundings.value, h.bind]
    simp only [Bind.bind, Except.bind]
    split
    case isTrue => rfl
    case isFalse other => exact absurd decided other

theorem logic_undecided {op : LogicOp} (hl : l.Evaluates (.ok a)) (open' : ¬op.Decided a)
    (hr : r.Evaluates y) :
    (logic n op l r).Evaluates (do return if (← y) = 0 then 0 else 1) := by
  intro s memory
  cases op <;>
  · rw [Surroundings.value, hl.bind]
    simp only [Bind.bind, Except.bind]
    split
    case isTrue other => exact absurd other open'
    case isFalse =>
      rw [show StateT.bind _ _ memory = _ from hr.bind _ s memory]
      cases y <;> rfl

theorem cond_error {u : Undefined} (h : c.Evaluates (.error u)) (l r : Expr) :
    (cond n c l r).Evaluates (.error u) := by
  intro s memory
  rw [Surroundings.value, h.bind]
  rfl

theorem cond_taken (hc : c.Evaluates (.ok a)) (nonzero : a ≠ 0) (hl : l.Evaluates y) (r : Expr) :
    (cond n c l r).Evaluates y := by
  intro s memory
  rw [Surroundings.value, hc.bind]
  simp only [Bind.bind, Except.bind, if_pos nonzero]
  exact hl s memory

theorem cond_skipped (hc : c.Evaluates (.ok 0)) (l : Expr) (hr : r.Evaluates y) :
    (cond n c l r).Evaluates y := by
  intro s memory
  rw [Surroundings.value, hc.bind]
  exact hr s memory

end Evaluates

/-! ### Conversions and operators on constants -/

theorem convert_evaluates (h : IsConstant t e) (range : t.Represents a)
    (outcome : e.Evaluates (.ok a)) (k : IntType) :
    (e.convert (.int k)).Evaluates (.ok (k.reduce a)) := by
  obtain ⟨rfl, same⟩ | ⟨n, v, rfl, literal⟩ | node := h.convert_cases k
  · rwa [same, IntType.reduce_of_represents range]
  · rw [literal, outcome.eq_ofInt h.ty, IntType.wrap_ofInt]
    exact .ofInt _ rfl (IntType.represents_reduce k a)
  · rw [node]
    exact outcome.cast

/-- An operation on two constants is a constant if it has a result. -/
theorem fold_cases (hl : IsConstant t l) (op : BinaryOp) (r : Expr) (loc : Location) :
    (∃ n m v w d, l = .int n v ∧ r = .int m w ∧ op.foldInt? t v w = some d ∧
      fold op l r ⟨.int t, loc⟩ = .int ⟨.int t, loc⟩ d) ∨
      fold op l r ⟨.int t, loc⟩ = .binary ⟨.int t, loc⟩ op l r := by
  unfold fold
  split
  case h_1 n v m w k ty =>
    cases ty
    split
    case h_1 d result => exact .inl ⟨n, m, v, w, d, rfl, rfl, result, rfl⟩
    case h_2 => exact .inr rfl
  case h_2 => exact hl.nodes.here.2.2.elim
  case h_3 => exact .inr rfl

theorem fold_isConstant (hl : IsConstant t l) (hr : IsConstant t r) (op : BinaryOp)
    (loc : Location) : IsConstant t (fold op l r ⟨.int t, loc⟩) := by
  obtain ⟨n, m, v, w, d, rfl, rfl, result, literal⟩ | node := fold_cases hl op r loc
  · obtain ⟨value, -, rfl⟩ := Option.map_eq_some_iff.mp result
    exact literal ▸ .int (IntType.wrap_wrap t value)
  · exact node ▸ hl.binary hr op

theorem fold_evaluates (hl : IsConstant t l) (hr : IsConstant t r) (rangeL : t.Represents a)
    (rangeR : t.Represents b) (outcomeL : l.Evaluates (.ok a)) (outcomeR : r.Evaluates (.ok b))
    {op : BinaryOp} {d : Int} (result : op.apply a b = .ok d) (loc : Location) :
    (fold op l r ⟨.int t, loc⟩).Evaluates (.ok (t.reduce d)) := by
  obtain ⟨n, m, v, w, folded, rfl, rfl, found, literal⟩ | node := fold_cases hl op r loc
  · rw [outcomeL.eq_ofInt hl.ty, outcomeR.eq_ofInt hr.ty,
      BinaryOp.foldInt?_ofInt rangeL (.inl rangeR) result] at found
    cases found
    rw [literal]
    exact .ofInt _ rfl (IntType.represents_reduce t d)
  · have outcome : (Expr.binary ⟨.int t, loc⟩ op l r).Evaluates _ := outcomeL.binary outcomeR op
    simp only [Bind.bind, Except.bind, result] at outcome
    rw [node]
    exact outcome

/-- The only operations without a result are divisions. -/
theorem apply_cases (op : BinaryOp) (a b : Int) :
    op.apply a b = .error .division ∨ ∃ d, op.apply a b = .ok d := by
  cases op with
  | div | rem =>
      unfold BinaryOp.apply
      dsimp only
      split
      · exact .inr ⟨_, rfl⟩
      · exact .inl rfl
  | _ => exact .inr ⟨_, rfl⟩

/-! ### Comparisons and conditions -/

theorem wrap_ofBool (b : Bool) : IntType.int.wrap (Word.ofBool b) = Word.ofBool b := by
  cases b <;> rfl

theorem ofBool_evaluates (loc : Location) (b : Bool) :
    (Expr.int ⟨.int .int, loc⟩ (Word.ofBool b)).Evaluates (.ok (if b then 1 else 0)) := by
  cases b <;> exact .int ⟨.int .int, loc⟩ rfl _

theorem compareNode_cases (hl : IsConstant t l) (op : CompareOp) (r : Expr) (loc : Location) :
    (∃ n m v w, l = .int n v ∧ r = .int m w ∧ compareNode op l r loc =
      .int ⟨.int .int, loc⟩ (Word.ofBool (op.holds (Word.order t.signed v w)))) ∨
      compareNode op l r loc = .compare ⟨.int .int, loc⟩ op l r := by
  unfold compareNode
  split
  case h_1 n v m w =>
    have ty : n.ty = .int t := hl.ty
    refine .inl ⟨n, m, v, w, rfl, rfl, ?_⟩
    rw [ty]
    rfl
  case h_2 => exact .inr rfl

theorem compareNode_isConstant (hl : IsConstant t l) (hr : IsConstant t r) (op : CompareOp)
    (loc : Location) : IsConstant .int (compareNode op l r loc) := by
  obtain ⟨n, m, v, w, rfl, rfl, literal⟩ | node := compareNode_cases hl op r loc
  · exact literal ▸ .int (wrap_ofBool _)
  · exact node ▸ hl.compare hr op

theorem compareNode_evaluates (hl : IsConstant t l) (hr : IsConstant t r)
    (rangeL : t.Represents a) (rangeR : t.Represents b) (outcomeL : l.Evaluates (.ok a))
    (outcomeR : r.Evaluates (.ok b)) (op : CompareOp) (loc : Location) :
    (compareNode op l r loc).Evaluates (.ok (if op.holds (Ord.compare a b) then 1 else 0)) := by
  obtain ⟨n, m, v, w, rfl, rfl, literal⟩ | node := compareNode_cases hl op r loc
  · rw [literal, outcomeL.eq_ofInt hl.ty, outcomeR.eq_ofInt hr.ty,
      IntType.order_ofInt rangeL rangeR]
    exact ofBool_evaluates loc _
  · exact node ▸ outcomeL.compare outcomeR op

theorem represents_ofBool (b : Bool) : IntType.int.Represents (if b then 1 else 0) := by
  cases b <;> decide

/-- The zero that a condition is compared with. -/
theorem zero_isConstant (t : IntType) (loc : Location) : IsConstant t (zero ⟨.int t, loc⟩) :=
  .int (by obtain ⟨w, s⟩ := t; cases w <;> cases s <;> rfl)

theorem zero_evaluates (t : IntType) (loc : Location) :
    (zero ⟨.int t, loc⟩).Evaluates (.ok 0) := by
  have outcome := Evaluates.int ⟨.int t, loc⟩ rfl 0
  rwa [show t.value 0 = 0 by simp [IntType.value]] at outcome

theorem represents_zero (t : IntType) : t.Represents 0 := by
  obtain ⟨w, s⟩ := t
  cases w <;> cases s <;> decide

theorem isCondition_of_isBoolean (h : e.isBoolean = true) : e.IsCondition := by
  cases e <;> trivial

theorem IsConstant.eq_int (h : IsConstant t e) (boolean : e.isBoolean = true) : t = .int := by
  obtain ⟨-, rule, -⟩ := h.nodes.here
  have ty := h.ty
  cases e with
  | compare | logic => exact CType.int.inj (ty.symm.trans rule.1)
  | _ => cases boolean

theorem isCondition_compareNode (op : CompareOp) (l r : Expr) (loc : Location) :
    (compareNode op l r loc).IsCondition := by
  unfold compareNode
  split
  · exact isCondition_ofBool _ _
  · trivial

/-- A comparison with zero tells whether a value is zero. -/
theorem holds_ne_zero (a : Int) :
    (if CompareOp.ne.holds (Ord.compare a 0) then 1 else 0 : Int) = if a = 0 then 0 else 1 := by
  by_cases h : a = 0
  · subst h
    rfl
  · have different : CompareOp.ne.holds (Ord.compare a 0) = true := by
      simpa [CompareOp.holds, Ordering.isNe_iff_ne_eq] using h
    rw [if_pos different, if_neg h]

theorem truth_of_zero_or_one (h : a = 0 ∨ a = 1) : (if a = 0 then 0 else 1 : Int) = a := by
  rcases h with rfl | rfl <;> rfl

theorem represents_truth (a : Int) : IntType.int.Represents (if a = 0 then 0 else 1) := by
  split <;> decide

theorem eq_int_of_intValue? (h : e.intValue? = some v) : ∃ n, e = .int n v := by
  cases e with
  | int n w =>
      cases h
      exact ⟨n, rfl⟩
  | _ => cases h

theorem ofInt_bne_zero (range : t.Represents a) : (BitVec.ofInt 64 a != 0) = (a != 0) := by
  rw [Bool.eq_iff_iff, bne_iff_ne, bne_iff_ne, ne_eq, ne_eq, IntType.ofInt_eq_zero range]

theorem Evaluates.withLoc (h : e.Evaluates x) (loc : Location) : (e.withLoc loc).Evaluates x := by
  intro s memory
  rw [← h s memory]
  cases e with
  | logic n op l r => cases op <;> simp only [Expr.withLoc, withNote, Surroundings.value]
  | _ => simp only [Expr.withLoc, withNote, Surroundings.value, Expr.ty, note]

/-! ### Types of the operators -/

theorem promote_int (t : IntType) : ∃ k, (CType.int t).promote = .int k := by
  unfold CType.promote
  dsimp only
  split <;> exact ⟨_, rfl⟩

theorem usualArithmetic_int (t k : IntType) :
    ∃ j, CType.usualArithmetic (.int t) (.int k) = .int j := by
  obtain ⟨t', promotedT⟩ := promote_int t
  obtain ⟨k', promotedK⟩ := promote_int k
  exact ⟨CType.commonInt t' k', by simp [CType.usualArithmetic, CType.isDouble, promotedT, promotedK]⟩

theorem operationType_int (op : BinaryOp) (t k : IntType) :
    ∃ j, operationType op (.int t) (.int k) = .int j := by
  unfold operationType
  split
  · exact promote_int t
  · exact usualArithmetic_int t k

/-- An arithmetic operator converts its operands to one type and folds them. -/
theorem arithmetic_eq (hl : l.ty = .int t) (hr : r.ty = .int k) (op : BinaryOp) (loc : Location) :
    arithmetic op l r loc = do
      let ty := operationType op l.ty r.ty
      if (op == .div || op == .rem) && (r.convert ty).intValue? == some 0 then
        Typing.warn loc .divisionByZero
      return fold op (l.convert ty) (r.convert ty) ⟨ty, loc⟩ := by
  have accepted : acceptsOperands op l.ty r.ty = true := by
    rw [hl, hr]
    cases op <;> rfl
  unfold arithmetic
  split
  case h_1 pointer _ | h_2 pointer _ | h_4 pointer _ => cases hl.symm.trans pointer
  case h_3 pointer => cases hr.symm.trans pointer
  case h_5 => simp only [accepted, Bool.not_true, Bool.false_eq_true, if_false]

theorem arithmetic_int (hl : l.ty = .int t) (hr : r.ty = .int k) (op : BinaryOp) (loc : Location)
    (ws : List SemanticNotice) : ∃ ws', arithmetic op l r loc ws =
      .ok (fold op (l.convert (operationType op l.ty r.ty)) (r.convert (operationType op l.ty r.ty))
        ⟨operationType op l.ty r.ty, loc⟩, ws') := by
  rw [arithmetic_eq hl hr]
  dsimp only
  generalize ((op == .div || op == .rem) && _ : Bool) = zero
  cases zero <;> exact ⟨_, rfl⟩

end Expr
end LiveC
