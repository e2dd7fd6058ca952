import LiveC.Proofs.OperatorTyping

/-!
Typing of what refers to objects and functions: assignments, steps, addresses, pointers and
calls, with the unary operators.
-/

namespace LiveC
namespace Expr

open CType Typing

variable {Γ : TypingContext} {e target value : Expr} {n : Note} {ty : CType}

/-! ### Assignment -/

theorem requireAssignable_yields (target : Expr) (loc : Location) :
    (target.requireAssignable loc).Yields fun _ => target.isLvalue = true := by
  unfold requireAssignable
  split
  case isTrue => exact .fail
  case isFalse h =>
    simp only [Bool.or_eq_true, Bool.not_eq_true', not_or, Bool.not_eq_false] at h
    exact .pure h.1

theorem assignment_yields (closed : Γ.Closed) (ht : target.WellTyped Γ) (hv : value.WellTyped Γ)
    (lvalue : target.isLvalue = true) (loc : Location) :
    (assignment target value loc).Yields (WellTyped Γ) := by
  unfold assignment
  refine .bind (assignConvert_yields closed hv ht.wellFormed loc) fun value ⟨hv, ty, scalar⟩ => ?_
  exact .pure (.two ht.wellFormed ⟨lvalue, scalar, rfl, ty⟩ rfl ht hv)

theorem opAssignment_yields (closed : Γ.Closed) (ht : target.WellTyped Γ)
    (hv : value.WellTyped Γ) (lvalue : target.isLvalue = true) (op : BinaryOp) (loc : Location) :
    (opAssignment op target value loc).Yields (WellTyped Γ) := by
  have hv := rvalue_wellTyped hv
  unfold opAssignment
  generalize value.rvalue = value at *
  dsimp only
  split
  case isTrue pointer =>
    refine .guard fun index => .pure ?_
    simp only [Bool.and_eq_true, Bool.or_eq_true, beq_iff_eq] at pointer
    simp only [Bool.not_eq_true, Bool.not_eq_false'] at index
    have scaled := scaleIndex_wellTyped closed hv index target.ty
    exact .two ht.wellFormed ⟨lvalue, rfl, .inr ⟨pointer.1, pointer.2, rfl, scaled.2⟩⟩ rfl ht
      scaled.1
  case isFalse =>
    refine .guard fun accepted => .pure ?_
    simp only [Bool.not_eq_true, Bool.not_eq_false'] at accepted
    have takes := takes_operationType accepted
    have arithmetic := isArithmetic_of_takes takes
    have converted := convert_wellTyped closed hv (wellFormed_of_isArithmetic arithmetic)
      (.inr (castable_of_isArithmetic (isArithmetic_of_accepted accepted).2 arithmetic))
    exact .two ht.wellFormed ⟨lvalue, rfl, .inl ⟨ty_convert _ _, takes, takes_of_accepted accepted⟩⟩
      rfl ht converted

theorem stepNode_yields (h : target.WellTyped Γ) (increment before : Bool) (loc : Location) :
    (stepNode target increment before loc).Yields (WellTyped Γ) := by
  unfold stepNode
  split
  case isTrue => exact .fail
  case isFalse steps =>
    simp only [Bool.or_eq_true, Bool.not_eq_true', not_or, Bool.not_eq_false] at steps
    exact .pure (.one h.wellFormed ⟨steps.1, steps.2, rfl⟩ rfl h)

/-! ### Unary operators -/

theorem castTo_yields (closed : Γ.Closed) (h : e.WellTyped Γ) (wf : ty.WellFormed)
    (loc : Location) : (castTo e ty loc).Yields (WellTyped Γ) := by
  unfold castTo
  dsimp only
  split
  case isTrue castable =>
    have converted := convert_wellTyped closed (rvalue_wellTyped h) wf (.inr castable)
    exact .pure (converted.withLoc loc)
  case isFalse => exact .fail

theorem address_yields (h : e.WellTyped Γ) (loc : Location) :
    (address e loc).Yields (WellTyped Γ) := by
  unfold address
  dsimp only
  split
  case h_1 n pointer =>
    have part : pointer.WellTyped Γ := h.part (.head _)
    exact .pure (part.withNote h.here.2.1.symm)
  case h_2 =>
    refine .ite (fun addressable => ?_) fun _ => .fail
    have place : e.isPlace = true := by
      simp only [Bool.or_eq_true] at addressable
      obtain (lvalue | function) | literal := addressable
      · exact isPlace_of_isLvalue lvalue
      · refine (decayed_or_isPlace h).resolve_left fun decayed => ?_
        rw [decayed.2] at function
        cases function
      · cases e <;> first | rfl | cases literal
    exact .pure (.one h.wellFormed ⟨place, .inl rfl⟩ rfl h)

theorem indirection_yields (h : e.WellTyped Γ) (loc : Location) :
    (indirection e loc).Yields (WellTyped Γ) := by
  have h := rvalue_wellTyped h
  unfold indirection
  generalize e.rvalue = e at *
  dsimp only
  split
  case h_1 pointee pointer =>
    have wf := h.wellFormed
    split
    case isTrue => exact .fail
    case isFalse void =>
      have node : (deref ⟨pointee, loc⟩ e).WellTyped Γ := by
        refine .one (by rwa [pointer] at wf) ⟨pointer, ?_⟩ rfl h
        rintro rfl
        exact void rfl
      split
      case h_1 n object =>
        split
        case isTrue => exact .pure (h.part (.head _))
        case isFalse => exact .pure node
      case h_2 => exact .pure node
  case h_2 => exact .fail

theorem promotedOperand_yields (closed : Γ.Closed) (h : e.WellTyped Γ) (op : Punct)
    {valid : CType → Bool} (scalar : ∀ t, valid t = true → t.isArithmetic = true) (loc : Location) :
    (promotedOperand op valid e loc).Yields fun r =>
      r.WellTyped Γ ∧ valid e.rvalue.ty = true ∧ r.ty = e.rvalue.ty.promote := by
  unfold promotedOperand
  refine .ite (fun hv => .pure ⟨?_, hv, ty_convert _ _⟩) fun _ => .fail
  have value := rvalue_wellTyped h
  have arithmetic := scalar _ hv
  exact convert_wellTyped closed value (wellFormed_promote value.wellFormed)
    (.inr (castable_of_isArithmetic arithmetic (isArithmetic_promote arithmetic)))

theorem plus_yields (closed : Γ.Closed) (h : e.WellTyped Γ) (loc : Location) :
    (plus e loc).Yields (WellTyped Γ) :=
  (promotedOperand_yields closed h .plus (fun _ => id) loc).mono fun _ post => post.1

theorem negation_yields (closed : Γ.Closed) (h : e.WellTyped Γ) (loc : Location) :
    (negation e loc).Yields (WellTyped Γ) := by
  unfold negation
  refine .bind (promotedOperand_yields closed h .minus (fun _ => id) loc)
    fun e ⟨h, valid, ty⟩ => ?_
  have arithmetic : e.ty.isArithmetic = true := ty ▸ isArithmetic_promote valid
  dsimp only
  split
  case h_1 t tyE =>
    exact .pure (.leaf (by rw [tyE]; trivial) (.inr ⟨_, tyE, closed _ _⟩) rfl)
  case h_2 => exact .pure (.leaf h.wellFormed h.here.2 rfl)
  case h_3 => exact .pure (.one h.wellFormed ⟨rfl, arithmetic⟩ rfl h)

theorem complement_yields (closed : Γ.Closed) (h : e.WellTyped Γ) (loc : Location) :
    (complement e loc).Yields (WellTyped Γ) := by
  unfold complement
  refine .bind (promotedOperand_yields closed h .tilde (fun _ => isArithmetic_of_isInteger) loc)
    fun e ⟨h, valid, ty⟩ => ?_
  have integer : e.ty.isInteger = true := ty ▸ isInteger_promote valid
  dsimp only
  split
  case h_1 t tyE =>
    exact .pure (.leaf (by rw [tyE]; trivial) (.inr ⟨_, tyE, closed _ _⟩) rfl)
  case h_2 => exact .pure (.one h.wellFormed ⟨rfl, integer⟩ rfl h)

theorem logicalNot_yields (closed : Γ.Closed) (h : e.WellTyped Γ) (loc : Location) :
    (logicalNot e loc).Yields (WellTyped Γ) := by
  have h := rvalue_wellTyped h
  unfold logicalNot
  generalize e.rvalue = e at *
  exact .ite (fun scalar => .pure (compareZero_controls closed .eq h scalar loc loc).1) fun _ => .fail

theorem sizeOf_yields (closed : Γ.Closed) (ty : CType) (loc : Location) :
    (sizeOf ty loc).Yields (WellTyped Γ) := by
  unfold sizeOf
  refine .ite (fun _ => ?_) fun _ => .fail
  exact .pure (.leaf trivial (.inr ⟨_, rfl, constant_w64 closed false _⟩) rfl)

/-! ### Subscripts and calls -/

theorem subscript_yields {base index : Expr} (closed : Γ.Closed) (hb : base.WellTyped Γ)
    (hi : index.WellTyped Γ) (loc : Location) :
    (subscript base index loc).Yields (WellTyped Γ) := by
  have hb := rvalue_wellTyped hb
  have hi := rvalue_wellTyped hi
  unfold subscript
  generalize base.rvalue = base at *
  generalize index.rvalue = index at *
  dsimp only
  have object {p : Expr} (h : p.WellTyped Γ) (isPointer : p.ty.isPointer = true) :
      Yields (do
        if (p.ty.pointee?.getD .void).isVoid || (p.ty.pointee?.getD .void).isFunction then
          Typing.fail loc (.invalidSubscript p.ty)
        return deref ⟨p.ty.pointee?.getD .void, loc⟩ p) (WellTyped Γ) := by
    cases ty : p.ty with
    | pointer element =>
        refine .guard fun valid => .pure (.one ?_ ⟨ty, ?_⟩ rfl h)
        · have wf := h.wellFormed
          rwa [ty] at wf
        · rintro rfl
          exact valid rfl
    | void | int | double | array | function => rw [ty] at isPointer; cases isPointer
  split
  case h_1 pointer integer =>
    have isPointer : base.ty.isPointer = true := by rw [pointer]; rfl
    have isInteger : index.ty.isInteger = true := by rw [integer]; rfl
    exact object (pointerOffset_wellTyped closed hb hi isPointer isInteger (.inl rfl) loc) isPointer
  case h_2 integer pointer =>
    have isPointer : index.ty.isPointer = true := by rw [pointer]; rfl
    have isInteger : base.ty.isInteger = true := by rw [integer]; rfl
    exact object (pointerOffset_wellTyped closed hi hb isPointer isInteger (.inl rfl) loc) isPointer
  case h_3 => exact .bind (P := fun _ => False) nofun nofun

/-- A callee whose signature its expression has. -/
def Callee.WellTyped (Γ : TypingContext) : Callee → Prop
  | .direct _ s => (CType.ofSignature s).WellFormed
  | .pointer p s => p.WellTyped Γ ∧ p.ty = .pointer (.ofSignature s)

theorem isFunction_of_signature? {t : CType} {s : Signature} (h : t.signature? = some s) :
    t.isFunction = true := by
  cases t with
  | function => rfl
  | void | int | double | pointer | array => cases h

theorem ofSignature_of_signature? {t : CType} {s : Signature} (h : t.signature? = some s) :
    t = .ofSignature s := by
  cases t <;> cases h
  rfl

theorem pointer_of_pointee? {t u : CType} (h : t.pointee? = some u) : t = .pointer u := by
  cases t <;> cases h
  rfl

theorem callee_yields (h : e.WellTyped Γ) (loc : Location) :
    (callee e loc).Yields (Callee.WellTyped Γ) := by
  unfold callee
  split
  case h_1 s signature =>
    have wf := h.wellFormed
    rw [ofSignature_of_signature? signature] at wf
    exact .pure wf
  case h_2 =>
    dsimp only
    split
    case h_1 s signature =>
      obtain ⟨t, pointee, signature⟩ := Option.bind_eq_some_iff.mp signature
      refine .pure ⟨rvalue_wellTyped h, ?_⟩
      rw [pointer_of_pointee? pointee, ofSignature_of_signature? signature]
    case h_2 => exact .fail

theorem promotedArgument_yields (closed : Γ.Closed) (h : e.WellTyped Γ) (loc : Location) :
    (promotedArgument e loc).Yields fun r =>
      r.WellTyped Γ ∧ r.ty.isScalar = true ∧ r.ty.promote = r.ty := by
  have h := rvalue_wellTyped h
  unfold promotedArgument
  generalize e.rvalue = e at *
  refine .ite (fun scalar => .pure ⟨?_, ?_, ?_⟩) fun _ => .fail
  · exact convert_wellTyped closed h (wellFormed_promote h.wellFormed)
      (.inr (castable_promote scalar))
  · rw [ty_convert]
    exact isScalar_promote scalar
  · rw [ty_convert, promote_promote]

/-- The arguments of a call that passes the check of their number. -/
theorem convertArguments_yields (closed : Γ.Closed) {args : List (Location × Expr)}
    (h : ∀ a ∈ args, a.2.WellTyped Γ) {params : List CType} (wf : ∀ t ∈ params, t.WellFormed) :
    (convertArguments params args).Yields fun es =>
      (∀ e ∈ es, e.WellTyped Γ) ∧ es.length = args.length ∧
        (es.take params.length).map Expr.ty = params.take args.length ∧
          ∀ e ∈ es.drop params.length, e.ty.isScalar = true ∧ e.ty.promote = e.ty := by
  induction args generalizing params with
  | nil => cases params <;> exact .pure ⟨nofun, rfl, rfl, nofun⟩
  | cons a args ih =>
      obtain ⟨first, others⟩ := List.forall_mem_cons.mp h
      cases params with
      | nil =>
          refine .bind (promotedArgument_yields closed first a.1) fun e ⟨he, promoted⟩ => ?_
          refine .bind (ih others nofun) fun es ⟨hes, length, types, behind⟩ => ?_
          exact .pure ⟨List.forall_mem_cons.mpr ⟨he, hes⟩, congrArg (· + 1) length, rfl,
            List.forall_mem_cons.mpr ⟨promoted, behind⟩⟩
      | cons p ps =>
          obtain ⟨wfFirst, wfOthers⟩ := List.forall_mem_cons.mp wf
          refine .bind (assignConvert_yields closed first wfFirst a.1) fun e ⟨he, ty, _⟩ => ?_
          refine .bind (ih others wfOthers) fun es ⟨hes, length, types, behind⟩ => ?_
          refine .pure ⟨List.forall_mem_cons.mpr ⟨he, hes⟩, congrArg (· + 1) length, ?_, behind⟩
          simp only [List.length_cons, List.take_succ_cons, List.map_cons, ty, types]

theorem allWellFormed_iff {ts : List CType} : AllWellFormed ts ↔ ∀ t ∈ ts, t.WellFormed := by
  induction ts with
  | nil => exact ⟨nofun, fun _ => trivial⟩
  | cons t ts ih => rw [AllWellFormed, ih, List.forall_mem_cons]

theorem Callee.WellTyped.wellFormed {c : Callee} (h : c.WellTyped Γ) :
    (CType.ofSignature c.signature).WellFormed := by
  cases c with
  | direct => exact h
  | pointer p s =>
      have wf := Expr.WellTyped.wellFormed h.1
      rwa [h.2] at wf

theorem callNode_yields {c : Callee} (closed : Γ.Closed) (hc : c.WellTyped Γ)
    {args : List (Location × Expr)} (h : ∀ a ∈ args, a.2.WellTyped Γ) (loc : Location) :
    (callNode c args loc).Yields (WellTyped Γ) := by
  have signature := hc.wellFormed
  obtain ⟨-, -, wfRet, wfParams⟩ := signature
  unfold callNode
  dsimp only
  refine .guard fun count => ?_
  have fixed : ∀ t ∈ (if c.signature.unspecified = true then [] else c.signature.params),
      t.WellFormed := by
    split
    · nofun
    · exact allWellFormed_iff.mp wfParams
  refine .bind (convertArguments_yields closed h fixed) fun es ⟨hes, length, types, behind⟩ => ?_
  refine .guard fun registers => ?_
  have arguments : Arguments c.signature es := by
    simp only [Bool.not_eq_true, Bool.not_eq_false'] at registers
    simp only [Bool.and_eq_true, Bool.not_eq_true', Bool.or_eq_true, decide_eq_true_eq,
      not_and, not_or, Nat.not_lt, Bool.not_eq_false] at count
    refine ⟨?_, fun specified closedList => ?_, behind, registers⟩
    · rw [types, List.take_of_length_le]
      split
      · exact Nat.zero_le _
      case isFalse specified => exact (count (Bool.not_eq_true _ ▸ specified)).1
    · obtain ⟨enough, extra⟩ := count specified
      rw [length, if_neg (by simp [specified])]
      by_cases more : c.signature.params.length < args.length
      · have variadic := extra more
        rw [closedList] at variadic
        cases variadic
      · omega
  split
  case h_1 name s => exact .pure (.node ⟨wfRet, hc, rfl, arguments⟩ hes)
  case h_2 p s =>
    exact .pure (.node ⟨wfRet, rfl, hc.2, arguments⟩ (List.forall_mem_cons.mpr ⟨hc.1, hes⟩))

end Expr
end LiveC
