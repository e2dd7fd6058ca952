import LiveC.Proofs.ConversionTyping
import LiveC.Proofs.Evaluation

/-!
The nodes that the operators build are well typed: every production of an expression hands
its operands to one of these functions, which insert the conversions.
-/

namespace LiveC

namespace CType

theorem isInteger_promote {t : CType} (h : t.isInteger = true) : t.promote.isInteger = true := by
  cases t with
  | int t =>
      simp only [promote]
      split <;> rfl
  | void | double | pointer | array | function => exact h

theorem isArithmetic_promote {t : CType} (h : t.isArithmetic = true) :
    t.promote.isArithmetic = true := by
  cases t with
  | int t => exact isArithmetic_of_isInteger (isInteger_promote rfl)
  | void | double | pointer | array | function => exact h

theorem promote_promote (t : CType) : t.promote.promote = t.promote := by
  cases t with
  | int t =>
      by_cases narrow : t.size < IntType.int.size
      · simp only [promote, if_pos narrow]
        rfl
      · simp only [promote, if_neg narrow]
  | void | double | pointer | array | function => rfl

theorem isScalar_promote {t : CType} (h : t.isScalar = true) : t.promote.isScalar = true := by
  cases t with
  | int t => exact isScalar_of_isArithmetic (isArithmetic_promote rfl)
  | void | double | pointer | array | function => exact h

theorem wellFormed_promote {t : CType} (h : t.WellFormed) : t.promote.WellFormed := by
  cases t with
  | int t => exact wellFormed_of_isArithmetic (isArithmetic_promote rfl)
  | void | double | pointer | array | function => exact h

theorem isInteger_usualArithmetic {s t : CType} (hs : s.isInteger = true)
    (ht : t.isInteger = true) : (usualArithmetic s t).isInteger = true := by
  have promoted := isInteger_promote hs
  have promoted' := isInteger_promote ht
  have double : (s.isDouble || t.isDouble) = false := by
    cases s <;> cases t <;> first | rfl | contradiction
  simp only [usualArithmetic, double, Bool.false_eq_true, if_false]
  split
  case h_1 => rfl
  case h_2 => exact promoted

theorem isArithmetic_usualArithmetic {s t : CType} (hs : s.isArithmetic = true)
    (ht : t.isArithmetic = true) : (usualArithmetic s t).isArithmetic = true := by
  cases hd : s.isDouble || t.isDouble with
  | true => simp only [usualArithmetic, hd, if_true, isArithmetic]
  | false =>
      obtain ⟨hs', ht'⟩ := Bool.or_eq_false_iff.mp hd
      refine isArithmetic_of_isInteger (isInteger_usualArithmetic ?_ ?_)
      · cases s <;> first | rfl | contradiction
      · cases t <;> first | rfl | contradiction

theorem castable_promote {t : CType} (h : t.isScalar = true) :
    Expr.castable t t.promote = true := by
  cases t with
  | int t => exact castable_of_isArithmetic rfl (isArithmetic_promote rfl)
  | double | pointer => rfl
  | void | array | function => cases h

/-- An operation is carried out in a type that it takes. -/
theorem takes_operationType {op : BinaryOp} {s t : CType}
    (h : Expr.acceptsOperands op s t = true) : Expr.Takes op (Expr.operationType op s t) := by
  cases op with
  | add | sub | mul | div =>
      obtain ⟨hs, ht⟩ := (Bool.and_eq_true _ _).mp h
      exact isArithmetic_usualArithmetic hs ht
  | rem | bitAnd | bitOr | bitXor =>
      obtain ⟨hs, ht⟩ := (Bool.and_eq_true _ _).mp h
      exact isInteger_usualArithmetic hs ht
  | shl | shr => exact isInteger_promote ((Bool.and_eq_true _ _).mp h).1

theorem isArithmetic_of_accepted {op : BinaryOp} {s t : CType}
    (h : Expr.acceptsOperands op s t = true) : s.isArithmetic = true ∧ t.isArithmetic = true := by
  cases op with
  | add | sub | mul | div => exact (Bool.and_eq_true _ _).mp h
  | rem | shl | shr | bitAnd | bitOr | bitXor =>
      obtain ⟨hs, ht⟩ := (Bool.and_eq_true _ _).mp h
      exact ⟨isArithmetic_of_isInteger hs, isArithmetic_of_isInteger ht⟩

theorem takes_of_accepted {op : BinaryOp} {s t : CType}
    (h : Expr.acceptsOperands op s t = true) : Expr.Takes op s := by
  cases op with
  | add | sub | mul | div | rem | shl | shr | bitAnd | bitOr | bitXor =>
      exact ((Bool.and_eq_true _ _).mp h).1

end CType

namespace Expr

open CType Typing

variable {Γ : TypingContext} {e l r : Expr} {n : Note} {ty : CType} {op : BinaryOp}

/-! ### Arithmetic -/

/-- Every word is a constant of a type as wide. -/
theorem constant_w64 (closed : Γ.Closed) (s : Bool) (v : Word) : Γ.constant ⟨.w64, s⟩ v :=
  IntType.wrap_w64 s v ▸ closed ⟨.w64, s⟩ v

theorem constant_foldInt (closed : Γ.Closed) {t : IntType} {a b v : Word}
    (h : op.foldInt? t a b = some v) : Γ.constant t v := by
  obtain ⟨w, -, rfl⟩ := Option.map_eq_some_iff.mp h
  exact closed t w

theorem fold_wellTyped (closed : Γ.Closed) (hl : l.WellTyped Γ) (hr : r.WellTyped Γ)
    (tyL : l.ty = n.ty) (tyR : r.ty = n.ty) (takes : Takes op n.ty) :
    (fold op l r n).WellTyped Γ ∧ (fold op l r n).ty = n.ty := by
  have wf := wellFormed_of_isArithmetic (isArithmetic_of_takes takes)
  have node : (binary n op l r).WellTyped Γ := .two wf ⟨tyL, .inl ⟨tyR, takes⟩⟩ rfl hl hr
  unfold fold
  split
  case h_1 a _ b t ty =>
    split
    case h_1 v fold =>
      exact ⟨.leaf wf (.inr ⟨t, ty, constant_foldInt closed fold⟩) rfl, rfl⟩
    case h_2 => exact ⟨node, rfl⟩
  case h_2 double =>
    split
    case h_1 => exact ⟨.leaf wf double rfl, rfl⟩
    case h_2 => exact ⟨node, rfl⟩
  case h_3 => exact ⟨node, rfl⟩

/-- An operation whose operands are converted to the type that it is carried out in. -/
theorem operation_wellTyped (closed : Γ.Closed) (hl : l.WellTyped Γ) (hr : r.WellTyped Γ)
    (accepted : acceptsOperands op l.ty r.ty = true) (loc : Location) :
    (fold op (l.convert (operationType op l.ty r.ty)) (r.convert (operationType op l.ty r.ty))
      ⟨operationType op l.ty r.ty, loc⟩).WellTyped Γ := by
  have takes := takes_operationType accepted
  have operands := isArithmetic_of_accepted accepted
  have ty := isArithmetic_of_takes takes
  have wf := wellFormed_of_isArithmetic ty
  exact (fold_wellTyped closed
    (convert_wellTyped closed hl wf (.inr (castable_of_isArithmetic operands.1 ty)))
    (convert_wellTyped closed hr wf (.inr (castable_of_isArithmetic operands.2 ty)))
    (ty_convert _ _) (ty_convert _ _) takes).1

theorem scaleIndex_wellTyped (closed : Γ.Closed) (h : e.WellTyped Γ)
    (index : e.ty.isInteger = true) (pointer : CType) :
    (scaleIndex e pointer).WellTyped Γ ∧ (scaleIndex e pointer).ty = .int .long := by
  have converted : (e.convert (.int .long)).WellTyped Γ := convert_wellTyped closed h trivial
    (.inr (castable_of_isArithmetic (isArithmetic_of_isInteger index) rfl))
  unfold scaleIndex
  dsimp only
  split
  case isTrue => exact ⟨converted, ty_convert _ _⟩
  case isFalse =>
    exact fold_wellTyped closed converted
      (.leaf trivial (.inr ⟨_, rfl, constant_w64 closed true _⟩) rfl) (ty_convert _ _) rfl rfl

theorem pointerOffset_wellTyped (closed : Γ.Closed) (hl : l.WellTyped Γ) (hr : r.WellTyped Γ)
    (pointer : l.ty.isPointer = true) (index : r.ty.isInteger = true) (addSub : op = .add ∨ op = .sub)
    (loc : Location) : (pointerOffset op l r loc).WellTyped Γ := by
  have scaled := scaleIndex_wellTyped closed hr index l.ty
  exact .two hl.wellFormed ⟨rfl, .inr ⟨pointer, addSub, scaled.2⟩⟩ rfl hl scaled.1

theorem pointerDifference_wellTyped (closed : Γ.Closed) (hl : l.WellTyped Γ) (hr : r.WellTyped Γ)
    (pointerL : l.ty.isPointer = true) (pointerR : r.ty.isPointer = true) (pointee : CType)
    (loc : Location) : (pointerDifference l r pointee loc).WellTyped Γ := by
  have address {p : Expr} (hp : p.WellTyped Γ) (pointer : p.ty.isPointer = true) :
      (p.convert (.int .long)).WellTyped Γ := by
    refine convert_wellTyped closed hp trivial (.inr ?_)
    cases ty : p.ty <;> first | rfl | (rw [ty] at pointer; cases pointer)
  have bytes : (binary ⟨.int .long, loc⟩ .sub (l.convert (.int .long))
      (r.convert (.int .long))).WellTyped Γ :=
    .two trivial ⟨ty_convert _ _, .inl ⟨ty_convert _ _, rfl⟩⟩ rfl (address hl pointerL)
      (address hr pointerR)
  unfold pointerDifference
  dsimp only
  split
  case isTrue => exact bytes
  case isFalse =>
    exact .two trivial ⟨rfl, .inl ⟨rfl, rfl⟩⟩ rfl bytes
      (.leaf trivial (.inr ⟨_, rfl, constant_w64 closed true _⟩) rfl)

theorem arithmetic_yields (closed : Γ.Closed) (hl : l.WellTyped Γ) (hr : r.WellTyped Γ)
    (op : BinaryOp) (loc : Location) : (arithmetic op l r loc).Yields (WellTyped Γ) := by
  unfold arithmetic
  split
  case h_1 p _ pointer index =>
    split
    case isTrue => exact .fail
    case isFalse =>
      exact .pure (pointerOffset_wellTyped closed hl hr (by rw [pointer]; rfl)
        (by rw [index]; rfl) (.inl rfl) loc)
  case h_2 p _ pointer index =>
    split
    case isTrue => exact .fail
    case isFalse =>
      exact .pure (pointerOffset_wellTyped closed hl hr (by rw [pointer]; rfl)
        (by rw [index]; rfl) (.inr rfl) loc)
  case h_3 index pointer =>
    exact .pure (pointerOffset_wellTyped closed hr hl (by rw [pointer]; rfl)
      (by rw [index]; rfl) (.inl rfl) loc)
  case h_4 p q pointerL pointerR =>
    split
    case isTrue => exact .fail
    case isFalse =>
      exact .pure (pointerDifference_wellTyped closed hl hr (by rw [pointerL]; rfl)
        (by rw [pointerR]; rfl) p loc)
  case h_5 =>
    refine .guard fun accepted => ?_
    simp only [Bool.not_eq_true, Bool.not_eq_false'] at accepted
    have done := operation_wellTyped closed hl hr accepted loc
    dsimp only
    split
    case isTrue => exact .skip fun _ => .pure done
    case isFalse => exact .pure done

theorem comparison_yields (closed : Γ.Closed) (hl : l.WellTyped Γ) (hr : r.WellTyped Γ)
    (op : CompareOp) (loc : Location) : (comparison op l r loc).Yields (WellTyped Γ) := by
  unfold comparison
  split
  case isTrue arithmetic =>
    obtain ⟨arithL, arithR⟩ := (Bool.and_eq_true _ _).mp arithmetic
    have ty := isArithmetic_usualArithmetic arithL arithR
    have wf := wellFormed_of_isArithmetic ty
    have types : (l.convert (usualArithmetic l.ty r.ty)).ty =
        (r.convert (usualArithmetic l.ty r.ty)).ty := by rw [ty_convert, ty_convert]
    exact .pure (compareNode_controls closed op
      (convert_wellTyped closed hl wf (.inr (castable_of_isArithmetic arithL ty)))
      (convert_wellTyped closed hr wf (.inr (castable_of_isArithmetic arithR ty)))
      (.inl ⟨types, by rwa [ty_convert]⟩) loc).1
  case isFalse =>
    split
    case h_1 pointerL pointerR =>
      exact .pure (compareNode_controls closed op hl hr
        (.inr ⟨by rw [pointerL]; rfl, by rw [pointerR]; rfl⟩) loc).1
    case h_2 p t pointer index =>
      have isPointer : l.ty.isPointer = true := by rw [pointer]; rfl
      have done := (compareNode_controls closed op hl
        (convert_wellTyped closed hr hl.wellFormed (.inr (by rw [pointer, index]; rfl)))
        (.inr ⟨isPointer, by rwa [ty_convert]⟩) loc).1
      dsimp only
      split
      case isTrue => exact .skip fun _ => .pure done
      case isFalse => exact .pure done
    case h_3 t p index pointer =>
      have isPointer : r.ty.isPointer = true := by rw [pointer]; rfl
      have done := (compareNode_controls closed op
        (convert_wellTyped closed hl hr.wellFormed (.inr (by rw [pointer, index]; rfl))) hr
        (.inr ⟨by rwa [ty_convert], isPointer⟩) loc).1
      dsimp only
      split
      case isTrue => exact .skip fun _ => .pure done
      case isFalse => exact .pure done
    case h_4 => exact .fail

theorem logical_yields (closed : Γ.Closed) (hl : l.WellTyped Γ) (hr : r.WellTyped Γ)
    (op : LogicOp) (loc : Location) : (logical op l r loc).Yields (WellTyped Γ) := by
  unfold logical
  refine .bind (condition_yields closed hl) fun l hl => ?_
  refine .bind (condition_yields closed hr) fun r hr => ?_
  dsimp only
  split
  case h_1 => exact .pure (ofBool_controls closed _ loc).1
  case h_2 => exact .pure (.two trivial ⟨rfl, hl.2, hr.2⟩ rfl hl.1 hr.1)

/-- The type of the arms of a conditional: void as both of them are, or what both can be
converted to. -/
theorem armsType_yields (hl : l.WellTyped Γ) (hr : r.WellTyped Γ) (loc : Location) :
    (armsType l r loc).Yields fun ty => ty.WellFormed ∧
      (ty = .void ∧ l.ty = .void ∧ r.ty = .void ∨
        ty.isScalar = true ∧ castable l.ty ty = true ∧ castable r.ty ty = true) := by
  unfold armsType
  split
  case isTrue arithmetic =>
    obtain ⟨arithL, arithR⟩ := (Bool.and_eq_true _ _).mp arithmetic
    have ty := isArithmetic_usualArithmetic arithL arithR
    exact .pure ⟨wellFormed_of_isArithmetic ty, .inr ⟨isScalar_of_isArithmetic ty,
      castable_of_isArithmetic arithL ty, castable_of_isArithmetic arithR ty⟩⟩
  case isFalse =>
    split
    case h_1 voidL voidR => exact .pure ⟨trivial, .inl ⟨rfl, voidL, voidR⟩⟩
    case h_2 p q pointerL pointerR =>
      have left : castable r.ty l.ty = true := by rw [pointerL, pointerR]; rfl
      have right : castable l.ty r.ty = true := by rw [pointerL, pointerR]; rfl
      have self : castable l.ty l.ty = true := by rw [pointerL]; rfl
      have self' : castable r.ty r.ty = true := by rw [pointerR]; rfl
      have scalar : l.ty.isScalar = true := by rw [pointerL]; rfl
      have scalar' : r.ty.isScalar = true := by rw [pointerR]; rfl
      split
      · exact .pure ⟨hl.wellFormed, .inr ⟨scalar, self, left⟩⟩
      · split
        · exact .pure ⟨hr.wellFormed, .inr ⟨scalar', right, self'⟩⟩
        · exact .pure ⟨hl.wellFormed, .inr ⟨scalar, self, left⟩⟩
    case h_3 p t pointer index =>
      split
      case isTrue =>
        refine .pure ⟨hl.wellFormed, .inr ⟨?_, ?_, ?_⟩⟩ <;>
          simp only [pointer, index] <;> rfl
      case isFalse => exact .fail
    case h_4 t p index pointer =>
      split
      case isTrue =>
        refine .pure ⟨hr.wellFormed, .inr ⟨?_, ?_, ?_⟩⟩ <;>
          simp only [pointer, index] <;> rfl
      case isFalse => exact .fail
    case h_5 => exact .fail

theorem conditional_yields {c : Expr} (closed : Γ.Closed) (hc : c.WellTyped Γ)
    (hl : l.WellTyped Γ) (hr : r.WellTyped Γ) (loc : Location) :
    (conditional c l r loc).Yields (WellTyped Γ) := by
  have valueL := rvalue_wellTyped hl
  have valueR := rvalue_wellTyped hr
  unfold conditional
  refine .bind (condition_yields closed hc) fun c hc => ?_
  dsimp only
  refine .bind (armsType_yields valueL valueR loc) fun ty ⟨wf, arms⟩ => ?_
  have node {l r : Expr} (hl : l.WellTyped Γ) (hr : r.WellTyped Γ) (tyL : l.ty = ty)
      (tyR : r.ty = ty) (scalar : ty.isScalar = true ∨ ty = .void) :
      (cond ⟨ty, loc⟩ c l r).WellTyped Γ :=
    .node ⟨wf, hc.2, tyL, tyR, scalar⟩ (List.forall_mem_cons.mpr ⟨hc.1,
      List.forall_mem_cons.mpr ⟨hl, List.forall_mem_singleton.mpr hr⟩⟩)
  split
  case isTrue void =>
    obtain ⟨rfl, voidL, voidR⟩ | ⟨scalar, -⟩ := arms
    · exact .pure (node valueL valueR voidL voidR (.inr rfl))
    · cases ty <;> contradiction
  case isFalse void =>
    obtain ⟨rfl, -⟩ | ⟨scalar, castL, castR⟩ := arms
    · exact absurd rfl void
    · have convertedL := convert_wellTyped closed valueL wf (.inr castL)
      have convertedR := convert_wellTyped closed valueR wf (.inr castR)
      split
      case h_1 =>
        refine .pure ?_
        split
        · exact convertedL
        · exact convertedR
      case h_2 =>
        exact .pure (node convertedL convertedR (ty_convert _ _) (ty_convert _ _) (.inl scalar))

end Expr
end LiveC
