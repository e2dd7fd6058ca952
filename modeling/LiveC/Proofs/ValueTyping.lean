import LiveC.Proofs.PlaceTyping
import LiveC.Proofs.SourceExpressions

/-!
Which trees are values, neither in memory nor functions. Most operators make a value of their
operands. A sign, a cast, a conditional and an address may leave an operand as it is, if that has
the type already which a value would get.
-/

namespace LiveC
namespace Expr

open CType Typing

variable {e l r target : Expr} {n : Note} {ty : CType} {loc : Location}

/-- Nothing in memory and no function. -/
structure IsValue (e : Expr) : Prop where
  notPlace : e.isPlace = false
  decayed : e.ty.Decayed

theorem decayed_of_isArithmetic (h : ty.isArithmetic = true) : ty.Decayed :=
  decayed_of_isScalar (isScalar_of_isArithmetic h)

theorem isPlace_withNote (e : Expr) (n : Note) : (e.withNote n).isPlace = e.isPlace := by
  cases e <;> rfl

theorem isLvalue_withLoc (e : Expr) (loc : Location) : (e.withLoc loc).isLvalue = e.isLvalue := by
  cases e <;> rfl

/-- Decay leaves a tree as it is or makes an address of it. -/
theorem rvalue_eq_or_isValue (e : Expr) : e.rvalue = e ∧ e.ty.Decayed ∨ e.rvalue.IsValue := by
  have decayed := rvalue_decayed e
  unfold rvalue at *
  split at decayed
  case h_1 | h_2 => exact .inr ⟨rfl, decayed⟩
  case h_3 => exact .inl ⟨rfl, decayed⟩

theorem rvalue_of_decayed (h : e.ty.Decayed) : e.rvalue = e := by
  obtain ⟨array, function⟩ := h
  unfold rvalue
  split
  case h_1 ty =>
    rw [ty] at array
    cases array
  case h_2 ty =>
    rw [ty] at function
    cases function
  case h_3 => rfl

/-- Conversion leaves a tree as it is or makes a value of it. -/
theorem convert_eq_or_isValue (e : Expr) (h : ty.Decayed) :
    e.convert ty = e ∨ (e.convert ty).IsValue := by
  have decayed : (e.convert ty).ty.Decayed := (ty_convert e ty).symm ▸ h
  unfold convert at *
  split
  case isTrue => exact .inl rfl
  case isFalse other =>
    rw [if_neg other] at decayed
    refine .inr ⟨?_, decayed⟩
    split <;> rfl

/-- A tree that is converted as a value is still what it was, or a value. -/
theorem convert_rvalue (e : Expr) (h : ty.Decayed) :
    e.rvalue.convert ty = e ∧ e.ty.Decayed ∨ (e.rvalue.convert ty).IsValue := by
  obtain same | value := convert_eq_or_isValue e.rvalue h
  · rw [same]
    exact rvalue_eq_or_isValue e
  · exact .inr value

@[simp] theorem ty_fold (op : BinaryOp) (l r : Expr) (n : Note) : (fold op l r n).ty = n.ty := by
  unfold fold
  split
  case h_1 | h_2 => split <;> rfl
  case h_3 => rfl

theorem fold_isValue (op : BinaryOp) (h : n.ty.Decayed) : (fold op l r n).IsValue := by
  refine ⟨?_, (ty_fold op l r n).symm ▸ h⟩
  unfold fold
  split
  case h_1 | h_2 => split <;> rfl
  case h_3 => rfl

theorem compareNode_isValue (op : CompareOp) (l r : Expr) (loc : Location) :
    (compareNode op l r loc).IsValue := by
  unfold compareNode
  split <;> exact ⟨rfl, rfl, rfl⟩

theorem arithmetic_isValue (op : BinaryOp) (l r : Expr) (loc : Location) :
    (arithmetic op l r loc).Yields IsValue := by
  have offset {p : CType} {pointer index : Expr} (h : pointer.ty = .pointer p) :
      (pointerOffset op pointer index loc).IsValue := ⟨rfl, by
    change pointer.ty.Decayed
    rw [h]
    exact ⟨rfl, rfl⟩⟩
  unfold arithmetic
  split
  case h_1 hl _ | h_2 hl _ => exact .ite (fun _ => .fail) fun _ => .pure (offset hl)
  case h_3 _ hr => exact .pure (offset hr)
  case h_4 =>
    refine .ite (fun _ => .fail) fun _ => .pure ?_
    unfold pointerDifference
    dsimp only
    split <;> exact ⟨rfl, rfl, rfl⟩
  case h_5 =>
    refine .guard fun accepted => ?_
    simp only [Bool.not_eq_true, Bool.not_eq_false'] at accepted
    have arithmetic := isArithmetic_of_takes (takes_operationType accepted)
    exact .ite (fun _ => .skip fun _ => .pure (fold_isValue _ (decayed_of_isArithmetic arithmetic)))
      fun _ => .pure (fold_isValue _ (decayed_of_isArithmetic arithmetic))

theorem comparison_isValue (op : CompareOp) (l r : Expr) (loc : Location) :
    (comparison op l r loc).Yields IsValue := by
  have node (l r : Expr) : (pure (compareNode op l r loc) : Typing Expr).Yields IsValue :=
    .pure (compareNode_isValue op l r loc)
  refine .ite (fun _ => node _ _) fun _ => ?_
  split
  case h_1 => exact node _ _
  case h_2 | h_3 => exact .ite (fun _ => .skip fun _ => node _ _) fun _ => node _ _
  case h_4 => exact .fail

theorem logical_isValue (op : LogicOp) (l r : Expr) (loc : Location) :
    (logical op l r loc).Yields IsValue := by
  refine .skip fun l => .skip fun r => ?_
  split <;> exact .pure ⟨rfl, rfl, rfl⟩

theorem assignment_isValue (target value : Expr) (loc : Location) :
    (assignment target value loc).Yields IsValue := by
  refine .bind (assignConvert_converts value target.ty loc) fun value ⟨_, _, scalar⟩ => .pure ?_
  exact ⟨rfl, decayed_of_isScalar scalar⟩

theorem opAssignment_isValue (op : BinaryOp) (target value : Expr) (loc : Location) :
    (opAssignment op target value loc).Yields IsValue := by
  refine .ite (fun pointer => .guard fun _ => .pure ?_) fun _ => .guard fun accepted => .pure ?_
  · have pointer := ((Bool.and_eq_true _ _).mp pointer).1
    exact ⟨rfl, decayed_of_isScalar (isScalar_of_isPointer pointer)⟩
  · simp only [Bool.not_eq_true, Bool.not_eq_false'] at accepted
    exact ⟨rfl, decayed_of_isArithmetic (isArithmetic_of_accepted accepted).1⟩

theorem stepNode_isValue (target : Expr) (increment before : Bool) (loc : Location) :
    (stepNode target increment before loc).Yields fun r =>
      r.IsValue ∧ target.isLvalue = true ∧ target.ty.isScalar = true := by
  refine .ite (fun _ => .fail) fun steps => .pure ?_
  simp only [Bool.or_eq_true, Bool.not_eq_true', not_or, Bool.not_eq_false] at steps
  exact ⟨⟨rfl, decayed_of_isScalar steps.2⟩, steps⟩

/-! ### Unary operators -/

theorem promotedOperand_keeps (op : Punct) {valid : CType → Bool} (e : Expr) (loc : Location)
    (arithmetic : ∀ t, valid t = true → t.isArithmetic = true) :
    (promotedOperand op valid e loc).Yields fun r =>
      (r = e ∧ e.ty.Decayed ∨ r.IsValue) ∧ r.ty.Decayed := by
  refine .ite (fun hv => .pure ?_) fun _ => .fail
  have decayed := decayed_of_isArithmetic (isArithmetic_promote (arithmetic _ hv))
  exact ⟨convert_rvalue e decayed, (ty_convert ..).symm ▸ decayed⟩

/-- The sign `+` leaves what has its promoted type. -/
theorem plus_keeps (e : Expr) (loc : Location) :
    (plus e loc).Yields fun r => r = e ∧ e.ty.Decayed ∨ r.IsValue :=
  (promotedOperand_keeps .plus e loc fun _ => id).mono fun _ => And.left

theorem negation_isValue (e : Expr) (loc : Location) : (negation e loc).Yields IsValue := by
  refine .bind (promotedOperand_keeps .minus e loc fun _ => id) fun e ⟨_, decayed⟩ => ?_
  dsimp only
  split <;> exact .pure ⟨rfl, decayed⟩

theorem complement_isValue (e : Expr) (loc : Location) : (complement e loc).Yields IsValue := by
  refine .bind (promotedOperand_keeps .tilde e loc fun _ => isArithmetic_of_isInteger)
    fun e ⟨_, decayed⟩ => ?_
  dsimp only
  split <;> exact .pure ⟨rfl, decayed⟩

theorem logicalNot_isValue (e : Expr) (loc : Location) : (logicalNot e loc).Yields IsValue :=
  .ite (fun _ => .pure (compareNode_isValue ..)) fun _ => .fail

theorem sizeOf_isValue (ty : CType) (loc : Location) : (sizeOf ty loc).Yields IsValue :=
  .ite (fun _ => .pure ⟨rfl, rfl, rfl⟩) fun _ => .fail

/-- A cast leaves what has its type, at another place. -/
theorem castTo_keeps (e : Expr) (target : CType) (loc : Location) :
    (castTo e target loc).Yields fun r => r = e.withLoc loc ∧ e.ty.Decayed ∨ r.IsValue := by
  refine (castTo_converts e target loc).mono fun r ⟨converted, castable⟩ => ?_
  have decayed : target.Decayed := by
    cases target <;> first | exact ⟨rfl, rfl⟩ | cases castable
  subst converted
  obtain ⟨same, kept⟩ | ⟨notPlace, value⟩ := convert_rvalue e decayed
  · exact .inl ⟨congrArg (·.withLoc loc) same, kept⟩
  · exact .inr ⟨(isPlace_withNote ..).trans notPlace, (ty_withNote ..).symm ▸ value⟩

/-- The address of what a pointer points to is the pointer, with another type. -/
theorem address_keeps (e : Expr) (loc : Location) :
    (address e loc).Yields fun r =>
      r.ty.Decayed ∧ (r.isPlace = false ∨ ∃ m p n, e = .deref m p ∧ r = p.withNote n) := by
  unfold address
  split
  case h_1 m p =>
    have ty : (p.withNote ⟨.pointer (deref m p).ty, loc⟩).ty.Decayed := by
      rw [ty_withNote]
      exact ⟨rfl, rfl⟩
    exact .pure ⟨ty, .inr ⟨m, p, _, rfl, rfl⟩⟩
  case h_2 => exact .ite (fun _ => .pure ⟨⟨rfl, rfl⟩, .inl rfl⟩) fun _ => .fail

/-- What has an address. -/
theorem address_addressable (e : Expr) (loc : Location) :
    (address e loc).Yields fun _ =>
      e.isLvalue = true ∨ e.ty.isFunction = true ∨ ∃ n id, e = .str n id := by
  unfold address
  split
  case h_1 => exact .pure (.inl rfl)
  case h_2 =>
    refine .ite (fun addressable => .pure ?_) fun _ => .fail
    simp only [Bool.or_eq_true] at addressable
    obtain (lvalue | function) | literal := addressable
    · exact .inl lvalue
    · exact .inr (.inl function)
    · refine .inr (.inr ?_)
      cases e <;> first | exact ⟨_, _, rfl⟩ | cases literal

/-! ### Conditionals, subscripts and calls -/

theorem armsType_decayed (hl : l.ty.Decayed) (hr : r.ty.Decayed) (loc : Location) :
    (armsType l r loc).Yields Decayed := by
  refine .ite (fun arithmetic => .pure ?_) fun _ => ?_
  · obtain ⟨arithL, arithR⟩ := (Bool.and_eq_true _ _).mp arithmetic
    exact decayed_of_isArithmetic (isArithmetic_usualArithmetic arithL arithR)
  · split
    case h_1 => exact .pure ⟨rfl, rfl⟩
    case h_2 => exact .ite (fun _ => .pure hl) fun _ => .ite (fun _ => .pure hr) fun _ => .pure hl
    case h_3 => exact .ite (fun _ => .pure hl) fun _ => .fail
    case h_4 => exact .ite (fun _ => .pure hr) fun _ => .fail
    case h_5 => exact .fail

/-- A conditional whose condition is constant leaves the arm that is chosen, if the arm has the type
of both. -/
theorem conditional_keeps (c l r : Expr) (loc : Location) :
    (conditional c l r loc).Yields fun e =>
      (∃ k v, c.condition.Gives k ∧ k.intValue? = some v ∧ e = if v != 0 then l else r) ∧
          e.ty.Decayed ∨ e.IsValue := by
  refine .bind c.condition.yields_gives fun k condition =>
    .bind (armsType_decayed (rvalue_decayed l) (rvalue_decayed r) loc) fun ty decayed =>
      .ite (fun _ => .pure (.inr ⟨rfl, decayed⟩)) fun _ => ?_
  have arm (e : Expr) : e.rvalue.convert ty = e ∧ (e.rvalue.convert ty).ty.Decayed ∨
      (e.rvalue.convert ty).IsValue :=
    (convert_rvalue e decayed).imp (fun ⟨same, _⟩ =>
      ⟨same, (ty_convert e.rvalue ty).symm ▸ decayed⟩) id
  split
  case h_1 v constant =>
    refine .pure ?_
    split
    case isTrue chosen =>
      exact (arm l).imp (fun ⟨same, ty⟩ =>
        ⟨⟨k, v, condition, constant, by rw [if_pos chosen, same]⟩, ty⟩) id
    case isFalse chosen =>
      exact (arm r).imp (fun ⟨same, ty⟩ =>
        ⟨⟨k, v, condition, constant, by rw [if_neg chosen, same]⟩, ty⟩) id
  case h_2 => exact .pure (.inr ⟨rfl, decayed⟩)

theorem subscript_isFunction (base index : Expr) (loc : Location) :
    (subscript base index loc).Yields fun r => r.ty.isFunction = false := by
  have object (p : Expr) : Yields (do
      if (p.ty.pointee?.getD .void).isVoid || (p.ty.pointee?.getD .void).isFunction then
        Typing.fail loc (.invalidSubscript p.ty)
      return deref ⟨p.ty.pointee?.getD .void, loc⟩ p) fun r => r.ty.isFunction = false := by
    refine .guard fun valid => .pure ?_
    simp only [Bool.or_eq_true, not_or, Bool.not_eq_true] at valid
    exact valid.2
  unfold subscript
  dsimp only
  split
  case h_1 | h_2 => exact object _
  case h_3 => exact .bind (P := fun _ => False) nofun nofun

theorem callNode_isPlace (c : Callee) (args : List (Location × Expr)) (loc : Location) :
    (callNode c args loc).Yields fun r => r.isPlace = false := by
  refine .guard fun _ => .skip fun args => .guard fun _ => ?_
  split <;> exact .pure rfl

end Expr

theorem Operator.apply_isValue (op : Operator) (l r : Expr) (loc : Location) :
    (op.apply l r loc).Yields Expr.IsValue := by
  cases op with
  | logic op => exact Expr.logical_isValue op l r loc
  | compare op => exact Expr.comparison_isValue op l.rvalue r.rvalue loc
  | arith op => exact Expr.arithmetic_isValue op l.rvalue r.rvalue loc

theorem assignmentNode_isValue (op? : Option BinaryOp) (target value : Expr) (loc : Location) :
    (assignmentNode op? target value loc).Yields Expr.IsValue := by
  cases op? with
  | none => exact Expr.assignment_isValue target value loc
  | some op => exact Expr.opAssignment_isValue op target value loc

end LiveC
