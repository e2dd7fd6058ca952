import LiveC.Proofs.Evaluation
import LiveC.Proofs.PlaceTyping
import LiveC.Proofs.ConversionTyping
import LiveC.Typing.Operator

/-!
What code generation needs beside the typing rules: types of bounded sizes, so that steps of
pointers are immediates, and string literals that the unit has. Declarators bound every array that
they build; only an initialiser may make an object larger, by completing its outermost array. So
whatever is stepped through by a pointer variable has a size that fits 32 bits. Every operator
hands on expressions that are ready.
-/

namespace LiveC
namespace CType

mutual

/-- Every array in the type is as small as objects have to be. -/
def Bounded : CType → Prop
  | void | int _ | double => True
  | pointer t => Bounded t
  | array t n => Bounded t ∧ ∃ size ≤ maxObjectSize, (array t n).checkedSize = some size
  | function ret params _ _ => Bounded ret ∧ AllBounded params

def AllBounded : List CType → Prop
  | [] => True
  | t :: ts => Bounded t ∧ AllBounded ts

end

/-- The type of an object, whose outermost array may have got its length from an initialiser. -/
def ObjectBounded : CType → Prop
  | array t _ => Bounded t
  | t => Bounded t

/-- The type of a value, which may be the address of such an object. -/
def ValueBounded : CType → Prop
  | pointer t => ObjectBounded t
  | t => ObjectBounded t

theorem Bounded.object {t : CType} (h : t.Bounded) : t.ObjectBounded := by
  cases t with
  | array => exact h.1
  | void | int | double | pointer | function => exact h

theorem ObjectBounded.value {t : CType} (h : t.ObjectBounded) : t.ValueBounded := by
  cases t with
  | pointer t => exact Bounded.object h
  | void | int | double | array | function => exact h

theorem Bounded.value {t : CType} (h : t.Bounded) : t.ValueBounded := h.object.value

/-- An object of the type is as small as objects have to be. -/
def Fits (t : CType) : Prop := ∃ size ≤ maxObjectSize, t.checkedSize = some size

/-- An array whose elements are small, of a length up to a limit. -/
def Completed (limit : Nat) (t : CType) : Prop :=
  ∃ element n, t = array element (some n) ∧ element.Bounded ∧ n ≤ limit

theorem Completed.objectBounded {limit : Nat} {t : CType} (h : t.Completed limit) :
    t.ObjectBounded := by
  obtain ⟨element, n, rfl, bounded, -⟩ := h
  exact bounded

theorem bounded_of_isArithmetic {t : CType} (h : t.isArithmetic = true) : t.Bounded := by
  cases t <;> trivial

theorem ValueBounded.promote {t : CType} (h : t.ValueBounded) : t.promote.ValueBounded := by
  cases t with
  | int t =>
      simp only [CType.promote]
      split <;> trivial
  | void | double | pointer | array | function => exact h

theorem allBounded_iff {ts : List CType} : AllBounded ts ↔ ∀ t ∈ ts, t.Bounded := by
  induction ts with
  | nil => exact ⟨nofun, fun _ => trivial⟩
  | cons t ts ih => rw [AllBounded, ih, List.forall_mem_cons]

/-- What a bounded type takes in memory. -/
theorem Bounded.fits {t : CType} (h : t.Bounded) : t.Fits := by
  cases t with
  | array t n => exact h.2
  | int t =>
      obtain ⟨w, s⟩ := t
      cases w <;> exact ⟨_, Nat.le_of_ble_eq_true rfl, rfl⟩
  | void | double | pointer | function => exact ⟨_, Nat.le_of_ble_eq_true rfl, rfl⟩

theorem Bounded.size_le {t : CType} (h : t.Bounded) : t.size ≤ maxObjectSize := by
  obtain ⟨size, le, checked⟩ := h.fits
  rwa [CType.size, checked]

/-- A pointer variable steps over objects of bounded sizes. -/
theorem Bounded.strideOf_le {t : CType} (h : t.Bounded) : Expr.strideOf t ≤ maxObjectSize := by
  cases t with
  | pointer t => exact Bounded.size_le h
  | void | int | double | array | function => exact Nat.le_of_ble_eq_true rfl

end CType

/-! ### Readiness -/

namespace Expr

/-- What a node needs in a unit of so many string literals. -/
def ReadyNode (strings : Nat) (e : Expr) : Prop :=
  e.ty.ValueBounded ∧ (e.isLvalue = true → e.ty.ObjectBounded) ∧
    match e with
    | str _ id => id < strings
    | step _ delta _ _ => (delta.setWidth 32).signExtend 64 = delta
    | _ => True

def Ready (strings : Nat) (e : Expr) : Prop := e.Everywhere (ReadyNode strings)

/-- A node uses a name as that of a function or of a variable. -/
def UsesNode (kinds : String → Bool → Prop) : Expr → Prop
  | global n name => kinds name n.ty.isFunction
  | call _ name _ _ => kinds name true
  | _ => True

/-- Names are used as what they are. -/
def Uses (kinds : String → Bool → Prop) (e : Expr) : Prop := e.Everywhere (UsesNode kinds)

/-- An expression that is ready and uses names as what they are. -/
def Prepared (strings : Nat) (kinds : String → Bool → Prop) (e : Expr) : Prop :=
  e.Everywhere fun e => UsesNode kinds e ∧ ReadyNode strings e

theorem Prepared.ready {strings : Nat} {kinds : String → Bool → Prop} {e : Expr}
    (h : e.Prepared strings kinds) : e.Ready strings := h.mono fun _ => And.right

theorem Prepared.uses {strings : Nat} {kinds : String → Bool → Prop} {e : Expr}
    (h : e.Prepared strings kinds) : e.Uses kinds := h.mono fun _ => And.left

open CType Typing

variable {K : Nat} {F : String → Bool → Prop} {Γ : TypingContext} {e l r target value : Expr} {n : Note}
  {ty : CType}

theorem Prepared.bounded (h : e.Prepared K F) : e.ty.ValueBounded := h.here.2.1

theorem Prepared.object (h : e.Prepared K F) (lvalue : e.isLvalue = true) : e.ty.ObjectBounded :=
  h.here.2.2.1 lvalue

theorem Prepared.withNote (h : e.Prepared K F) (same : n.ty = e.ty) :
    (e.withNote n).Prepared K F := by
  obtain ⟨ty, loc⟩ := n
  subst same
  cases e <;> exact .node h.here fun part member => h.part member

theorem Prepared.withLoc (h : e.Prepared K F) (loc : Location) : (e.withLoc loc).Prepared K F :=
  h.withNote rfl

theorem valueBounded_of_isArithmetic (h : ty.isArithmetic = true) : ty.ValueBounded :=
  (bounded_of_isArithmetic h).value

/-! ### Conversions -/

theorem rvalue_prepared (h : e.Prepared K F) : e.rvalue.Prepared K F := by
  have bounded := h.bounded
  unfold rvalue
  split
  case h_1 element length ty =>
    rw [ty] at bounded
    exact .one ⟨trivial, Bounded.object bounded, nofun, trivial⟩ rfl h
  case h_2 ty =>
    rw [ty] at bounded
    refine .one ⟨trivial, ?_, nofun, trivial⟩ rfl h
    rw [Expr.ty, note, ty]
    exact bounded
  case h_3 => exact h

theorem convert_prepared (h : e.Prepared K F) (bounded : ty.ValueBounded) :
    (e.convert ty).Prepared K F := by
  unfold convert
  split
  case isTrue => exact h
  case isFalse =>
    split
    case h_1 | h_2 | h_3 | h_4 => exact .leaf ⟨trivial, bounded, nofun, trivial⟩ rfl
    case h_5 => exact .one ⟨trivial, bounded, nofun, trivial⟩ rfl h

theorem assignConvert_prepared (h : e.Prepared K F) (bounded : ty.ValueBounded) (loc : Location) :
    (e.assignConvert ty loc).Yields (Prepared K F) := by
  have done : (pure (e.rvalue.convert ty) : Typing Expr).Yields (Prepared K F) :=
    .pure (convert_prepared (rvalue_prepared h) bounded)
  unfold assignConvert
  generalize e.rvalue = e at *
  dsimp only
  split
  case isTrue =>
    split
    case h_1 | h_2 =>
      split
      · exact .skip fun _ => done
      · exact done
    case h_3 => exact .skip fun _ => done
    case h_4 => exact .bind (P := fun _ => False) nofun nofun
  case isFalse => exact done

theorem int_prepared {v : Word} (bounded : n.ty.ValueBounded) : (int n v).Prepared K F :=
  .leaf ⟨trivial, bounded, nofun, trivial⟩ rfl

theorem zero_prepared (bounded : n.ty.ValueBounded) : (zero n).Prepared K F := by
  unfold zero
  split <;> exact .leaf ⟨trivial, bounded, nofun, trivial⟩ rfl

theorem compareNode_prepared (op : CompareOp) (hl : l.Prepared K F) (hr : r.Prepared K F)
    (loc : Location) : (compareNode op l r loc).Prepared K F := by
  unfold compareNode
  dsimp only
  split
  case h_1 => exact int_prepared trivial
  case h_2 => exact .two ⟨trivial, trivial, nofun, trivial⟩ rfl hl hr

theorem condition_prepared (h : e.Prepared K F) : e.condition.Yields (Prepared K F) := by
  have value := rvalue_prepared h
  unfold condition
  generalize e.rvalue = e at *
  refine .ite (fun _ => .fail) fun _ => .ite (fun _ => .pure value) fun _ => ?_
  exact .pure (compareNode_prepared .ne value (zero_prepared value.bounded) _)

/-! ### Binary operators -/

theorem fold_prepared (op : BinaryOp) (hl : l.Prepared K F) (hr : r.Prepared K F)
    (bounded : n.ty.ValueBounded) : (fold op l r n).Prepared K F := by
  have node : (binary n op l r).Prepared K F := .two ⟨trivial, bounded, nofun, trivial⟩ rfl hl hr
  unfold fold
  split
  case h_1 | h_2 =>
    split
    · exact .leaf ⟨trivial, bounded, nofun, trivial⟩ rfl
    · exact node
  case h_3 => exact node

theorem scaleIndex_prepared (h : e.Prepared K F) (pointer : CType) :
    (scaleIndex e pointer).Prepared K F := by
  have converted : (e.convert (.int .long)).Prepared K F := convert_prepared h trivial
  unfold scaleIndex
  dsimp only
  split
  · exact converted
  · exact fold_prepared .mul converted (int_prepared trivial) trivial

theorem pointerOffset_prepared (op : BinaryOp) (hl : l.Prepared K F) (hr : r.Prepared K F)
    (loc : Location) : (pointerOffset op l r loc).Prepared K F :=
  .two ⟨trivial, hl.bounded, nofun, trivial⟩ rfl hl (scaleIndex_prepared hr l.ty)

theorem pointerDifference_prepared (hl : l.Prepared K F) (hr : r.Prepared K F) (pointee : CType)
    (loc : Location) : (pointerDifference l r pointee loc).Prepared K F := by
  have bytes : (binary ⟨.int .long, loc⟩ .sub (l.convert (.int .long))
      (r.convert (.int .long))).Prepared K F :=
    .two ⟨trivial, trivial, nofun, trivial⟩ rfl (convert_prepared hl trivial)
      (convert_prepared hr trivial)
  unfold pointerDifference
  dsimp only
  split
  · exact bytes
  · exact .two ⟨trivial, trivial, nofun, trivial⟩ rfl bytes (int_prepared trivial)

theorem operation_prepared {op : BinaryOp} (hl : l.Prepared K F) (hr : r.Prepared K F)
    (accepted : acceptsOperands op l.ty r.ty = true) (loc : Location) :
    (fold op (l.convert (operationType op l.ty r.ty)) (r.convert (operationType op l.ty r.ty))
      ⟨operationType op l.ty r.ty, loc⟩).Prepared K F := by
  have bounded := valueBounded_of_isArithmetic (isArithmetic_of_takes
    (takes_operationType accepted))
  exact fold_prepared op (convert_prepared hl bounded) (convert_prepared hr bounded) bounded

theorem arithmetic_prepared (hl : l.Prepared K F) (hr : r.Prepared K F) (op : BinaryOp)
    (loc : Location) : (arithmetic op l r loc).Yields (Prepared K F) := by
  unfold arithmetic
  split
  case h_1 => exact .ite (fun _ => .fail) fun _ => .pure (pointerOffset_prepared .add hl hr loc)
  case h_2 => exact .ite (fun _ => .fail) fun _ => .pure (pointerOffset_prepared .sub hl hr loc)
  case h_3 => exact .pure (pointerOffset_prepared .add hr hl loc)
  case h_4 p _ _ _ =>
    exact .ite (fun _ => .fail) fun _ => .pure (pointerDifference_prepared hl hr p loc)
  case h_5 =>
    refine .guard fun accepted => ?_
    simp only [Bool.not_eq_true, Bool.not_eq_false'] at accepted
    have done := operation_prepared hl hr accepted loc
    dsimp only
    split
    case isTrue => exact .skip fun _ => .pure done
    case isFalse => exact .pure done

theorem comparison_prepared (hl : l.Prepared K F) (hr : r.Prepared K F) (op : CompareOp)
    (loc : Location) : (comparison op l r loc).Yields (Prepared K F) := by
  unfold comparison
  split
  case isTrue arithmetic =>
    obtain ⟨arithL, arithR⟩ := (Bool.and_eq_true _ _).mp arithmetic
    have bounded := valueBounded_of_isArithmetic (isArithmetic_usualArithmetic arithL arithR)
    exact .pure (compareNode_prepared op (convert_prepared hl bounded)
      (convert_prepared hr bounded) loc)
  case isFalse =>
    split
    case h_1 => exact .pure (compareNode_prepared op hl hr loc)
    case h_2 =>
      have done := compareNode_prepared op hl (convert_prepared hr hl.bounded) loc
      dsimp only
      split
      · exact .skip fun _ => .pure done
      · exact .pure done
    case h_3 =>
      have done := compareNode_prepared op (convert_prepared hl hr.bounded) hr loc
      dsimp only
      split
      · exact .skip fun _ => .pure done
      · exact .pure done
    case h_4 => exact .fail

theorem logical_prepared (hl : l.Prepared K F) (hr : r.Prepared K F) (op : LogicOp)
    (loc : Location) : (logical op l r loc).Yields (Prepared K F) := by
  unfold logical
  refine .bind (condition_prepared hl) fun l hl => .bind (condition_prepared hr) fun r hr => ?_
  dsimp only
  split
  case h_1 => exact .pure (int_prepared trivial)
  case h_2 => exact .pure (.two ⟨trivial, trivial, nofun, trivial⟩ rfl hl hr)

theorem armsType_bounded (hl : l.Prepared K F) (hr : r.Prepared K F) (loc : Location) :
    (armsType l r loc).Yields ValueBounded := by
  unfold armsType
  split
  case isTrue arithmetic =>
    obtain ⟨arithL, arithR⟩ := (Bool.and_eq_true _ _).mp arithmetic
    exact .pure (valueBounded_of_isArithmetic (isArithmetic_usualArithmetic arithL arithR))
  case isFalse =>
    split
    case h_1 => exact .pure trivial
    case h_2 =>
      exact .ite (fun _ => .pure hl.bounded) fun _ =>
        .ite (fun _ => .pure hr.bounded) fun _ => .pure hl.bounded
    case h_3 => exact .ite (fun _ => .pure hl.bounded) fun _ => .fail
    case h_4 => exact .ite (fun _ => .pure hr.bounded) fun _ => .fail
    case h_5 => exact .fail

theorem conditional_prepared {c : Expr} (hc : c.Prepared K F) (hl : l.Prepared K F)
    (hr : r.Prepared K F) (loc : Location) : (conditional c l r loc).Yields (Prepared K F) := by
  have valueL := rvalue_prepared hl
  have valueR := rvalue_prepared hr
  unfold conditional
  refine .bind (condition_prepared hc) fun c hc => ?_
  dsimp only
  refine .bind (armsType_bounded valueL valueR loc) fun ty bounded => ?_
  refine .ite (fun _ => .pure
    (.three ⟨trivial, bounded, nofun, trivial⟩ rfl hc valueL valueR)) fun _ => ?_
  have convertedL := convert_prepared valueL bounded
  have convertedR := convert_prepared valueR bounded
  split
  case h_1 =>
    refine .pure ?_
    split
    · exact convertedL
    · exact convertedR
  case h_2 => exact .pure (.three ⟨trivial, bounded, nofun, trivial⟩ rfl hc convertedL convertedR)

/-! ### Assignment -/

theorem assignment_prepared (ht : target.Prepared K F) (hv : value.Prepared K F) (loc : Location) :
    (assignment target value loc).Yields (Prepared K F) := by
  unfold assignment
  refine .bind (assignConvert_prepared hv ht.bounded loc) fun value hv => ?_
  exact .pure (.two ⟨trivial, ht.bounded, nofun, trivial⟩ rfl ht hv)

theorem opAssignment_prepared (ht : target.Prepared K F) (hv : value.Prepared K F) (op : BinaryOp)
    (loc : Location) : (opAssignment op target value loc).Yields (Prepared K F) := by
  have hv := rvalue_prepared hv
  unfold opAssignment
  generalize value.rvalue = value at *
  refine .ite (fun _ => .guard fun _ => .pure ?_) fun _ => .guard fun accepted => .pure ?_
  · exact .two ⟨trivial, ht.bounded, nofun, trivial⟩ rfl ht (scaleIndex_prepared hv target.ty)
  · simp only [Bool.not_eq_true, Bool.not_eq_false'] at accepted
    have bounded := valueBounded_of_isArithmetic
      (isArithmetic_of_takes (takes_operationType accepted))
    exact .two ⟨trivial, ht.bounded, nofun, trivial⟩ rfl ht (convert_prepared hv bounded)

/-- A number of 32 bits is an immediate operand. -/
theorem immediate_ofInt {z : Int} (h : -2147483648 ≤ z ∧ z < 2147483648) :
    ((BitVec.ofInt 64 z).setWidth 32).signExtend 64 = BitVec.ofInt 64 z := by
  have inRange : IntType.int.Represents z := h
  have wrapped := IntType.wrap_ofInt .int z
  rwa [IntType.reduce_of_represents inRange] at wrapped

/-- The stride of a variable fits an immediate operand. -/
theorem immediate_stride {stride : Nat} (h : stride ≤ maxObjectSize) (increment : Bool) :
    let delta : Word := if increment then BitVec.ofNat 64 stride else -BitVec.ofNat 64 stride
    (delta.setWidth 32).signExtend 64 = delta := by
  have le : stride ≤ 2147483647 := h
  cases increment with
  | true => exact BitVec.ofInt_natCast 64 stride ▸ immediate_ofInt (by omega)
  | false =>
      have negative : -BitVec.ofNat 64 stride = BitVec.ofInt 64 (-stride) := by
        rw [BitVec.ofInt_neg, BitVec.ofInt_natCast]
      exact negative ▸ immediate_ofInt (by omega)

theorem stepNode_prepared (h : target.Prepared K F) (increment before : Bool) (loc : Location) :
    (stepNode target increment before loc).Yields (Prepared K F) := by
  unfold stepNode
  refine .ite (fun _ => .fail) fun steps => .pure ?_
  simp only [Bool.or_eq_true, Bool.not_eq_true', not_or, Bool.not_eq_false] at steps
  have bounded : target.ty.Bounded := by
    have object := h.object steps.1
    cases ty : target.ty with
    | array => rw [ty] at steps; cases steps.2
    | void | int | double | pointer | function => rwa [ty] at object
  exact .one ⟨trivial, h.bounded, nofun, immediate_stride bounded.strideOf_le increment⟩ rfl h

/-! ### Unary operators -/

theorem castTo_prepared (h : e.Prepared K F) (bounded : ty.ValueBounded) (loc : Location) :
    (castTo e ty loc).Yields (Prepared K F) := by
  unfold castTo
  refine .ite (fun _ => .pure ?_) fun _ => .fail
  exact (convert_prepared (rvalue_prepared h) bounded).withLoc loc

theorem address_prepared (typed : e.WellTyped Γ) (h : e.Prepared K F) (loc : Location) :
    (address e loc).Yields (Prepared K F) := by
  unfold address
  dsimp only
  split
  case h_1 pointer =>
    have part : pointer.Prepared K F := h.part (.head _)
    exact .pure (part.withNote typed.here.2.1.symm)
  case h_2 =>
    refine .ite (fun addressable => .pure (.one ⟨trivial, ?_, nofun, trivial⟩ rfl h)) fun _ => .fail
    simp only [Bool.or_eq_true] at addressable
    obtain (lvalue | function) | literal := addressable
    · exact h.object lvalue
    · have bounded := h.bounded
      change e.ty.ObjectBounded
      cases ty : e.ty with
      | function => rwa [ty] at bounded
      | void | int | double | pointer | array => rw [ty] at function; cases function
    · cases e with
      | str n id =>
          obtain ⟨length, ty⟩ := typed.here.2
          change n.ty.ObjectBounded
          rw [ty]
          trivial
      | _ => cases literal

theorem indirection_prepared (h : e.Prepared K F) (loc : Location) :
    (indirection e loc).Yields (Prepared K F) := by
  have h := rvalue_prepared h
  unfold indirection
  generalize e.rvalue = e at *
  dsimp only
  split
  case h_1 pointee pointer =>
    have bounded := h.bounded
    rw [pointer] at bounded
    have node : (deref ⟨pointee, loc⟩ e).Prepared K F :=
      .one ⟨trivial, ObjectBounded.value bounded, fun _ => bounded, trivial⟩ rfl h
    refine .ite (fun _ => .fail) fun _ => ?_
    split
    case h_1 => exact .ite (fun _ => .pure (h.part (.head _))) fun _ => .pure node
    case h_2 => exact .pure node
  case h_2 => exact .fail

theorem promotedOperand_prepared (h : e.Prepared K F) (op : Punct) (valid : CType → Bool)
    (loc : Location) : (promotedOperand op valid e loc).Yields (Prepared K F) := by
  have value := rvalue_prepared h
  unfold promotedOperand
  exact .ite (fun _ => .pure (convert_prepared value value.bounded.promote)) fun _ => .fail

theorem plus_prepared (h : e.Prepared K F) (loc : Location) : (plus e loc).Yields (Prepared K F) :=
  promotedOperand_prepared h .plus CType.isArithmetic loc

theorem negation_prepared (h : e.Prepared K F) (loc : Location) : (negation e loc).Yields
    (Prepared K F) := by
  unfold negation
  refine .bind (promotedOperand_prepared h .minus CType.isArithmetic loc) fun e h => ?_
  dsimp only
  split
  case h_1 | h_2 => exact .pure (.leaf ⟨trivial, h.bounded, nofun, trivial⟩ rfl)
  case h_3 => exact .pure (.one ⟨trivial, h.bounded, nofun, trivial⟩ rfl h)

theorem complement_prepared (h : e.Prepared K F) (loc : Location) :
    (complement e loc).Yields (Prepared K F) := by
  unfold complement
  refine .bind (promotedOperand_prepared h .tilde CType.isInteger loc) fun e h => ?_
  dsimp only
  split
  case h_1 => exact .pure (.leaf ⟨trivial, h.bounded, nofun, trivial⟩ rfl)
  case h_2 => exact .pure (.one ⟨trivial, h.bounded, nofun, trivial⟩ rfl h)

theorem logicalNot_prepared (h : e.Prepared K F) (loc : Location) :
    (logicalNot e loc).Yields (Prepared K F) := by
  have h := rvalue_prepared h
  unfold logicalNot
  generalize e.rvalue = e at *
  refine .ite (fun _ => .pure ?_) fun _ => .fail
  exact compareNode_prepared .eq h (zero_prepared (n := ⟨e.ty, loc⟩) h.bounded) loc

theorem sizeOf_prepared (ty : CType) (loc : Location) : (sizeOf ty loc).Yields (Prepared K F) := by
  unfold sizeOf
  exact .ite (fun _ => .pure (int_prepared trivial)) fun _ => .fail

/-! ### Subscripts and calls -/

theorem subscript_prepared {base index : Expr} (hb : base.Prepared K F) (hi : index.Prepared K F)
    (loc : Location) : (subscript base index loc).Yields (Prepared K F) := by
  have hb := rvalue_prepared hb
  have hi := rvalue_prepared hi
  unfold subscript
  generalize base.rvalue = base at *
  generalize index.rvalue = index at *
  dsimp only
  have object {p : Expr} (h : p.Prepared K F) {t : CType} (ty : p.ty = .pointer t) :
      Yields (do
        if (p.ty.pointee?.getD .void).isVoid || (p.ty.pointee?.getD .void).isFunction then
          Typing.fail loc (.invalidSubscript p.ty)
        return deref ⟨p.ty.pointee?.getD .void, loc⟩ p) (Prepared K F) := by
    have bounded := h.bounded
    rw [ty] at bounded ⊢
    exact .guard fun _ => .pure
      (.one ⟨trivial, ObjectBounded.value bounded, fun _ => bounded, trivial⟩ rfl h)
  split
  case h_1 pointer _ => exact object (pointerOffset_prepared .add hb hi loc) pointer
  case h_2 pointer => exact object (pointerOffset_prepared .add hi hb loc) pointer
  case h_3 => exact .bind (P := fun _ => False) nofun nofun

/-- A callee that is a function by name, or an expression that is prepared. The types of its
signature are bounded. -/
def Callee.Prepared (K : Nat) (F : String → Bool → Prop) : Callee → Prop
  | .direct name s => F name true ∧ (CType.ofSignature s).Bounded
  | .pointer p s => p.Prepared K F ∧ (CType.ofSignature s).Bounded

theorem Callee.Prepared.signature {c : Callee} (h : c.Prepared K F) :
    (CType.ofSignature c.signature).Bounded := by
  cases c with
  | direct | pointer => exact h.2

theorem callee_prepared (h : e.Prepared K F) (loc : Location) :
    (callee e loc).Yields (Callee.Prepared K F) := by
  unfold callee
  split
  case h_1 s signature =>
    have bounded := h.bounded
    have uses := h.here.1
    rw [UsesNode] at uses
    rw [ofSignature_of_signature? signature] at bounded
    exact .pure ⟨isFunction_of_signature? signature ▸ uses, bounded⟩
  case h_2 =>
    have value := rvalue_prepared h
    dsimp only
    split
    case h_1 s signature =>
      obtain ⟨t, pointee, signature⟩ := Option.bind_eq_some_iff.mp signature
      have bounded := value.bounded
      rw [pointer_of_pointee? pointee, ofSignature_of_signature? signature] at bounded
      exact .pure ⟨value, bounded⟩
    case h_2 => exact .fail

theorem promotedArgument_prepared (h : e.Prepared K F) (loc : Location) :
    (promotedArgument e loc).Yields (Prepared K F) := by
  have h := rvalue_prepared h
  unfold promotedArgument
  generalize e.rvalue = e at *
  exact .ite (fun _ => .pure (convert_prepared h h.bounded.promote)) fun _ => .fail

theorem convertArguments_prepared {args : List (Location × Expr)} (h : ∀ a ∈ args, a.2.Prepared K F)
    {params : List CType} (bounded : ∀ t ∈ params, t.Bounded) :
    (convertArguments params args).Yields fun es => ∀ e ∈ es, e.Prepared K F := by
  induction args generalizing params with
  | nil => cases params <;> exact .pure nofun
  | cons a args ih =>
      obtain ⟨first, others⟩ := List.forall_mem_cons.mp h
      cases params with
      | nil =>
          refine .bind (promotedArgument_prepared first a.1) fun e he => ?_
          refine .bind (ih others nofun) fun es hes => ?_
          exact .pure (List.forall_mem_cons.mpr ⟨he, hes⟩)
      | cons p ps =>
          obtain ⟨boundedFirst, boundedOthers⟩ := List.forall_mem_cons.mp bounded
          refine .bind (assignConvert_prepared first boundedFirst.value a.1) fun e he => ?_
          refine .bind (ih others boundedOthers) fun es hes => ?_
          exact .pure (List.forall_mem_cons.mpr ⟨he, hes⟩)

theorem callNode_prepared {c : Callee} (hc : c.Prepared K F) {args : List (Location × Expr)}
    (h : ∀ a ∈ args, a.2.Prepared K F) (loc : Location) :
    (callNode c args loc).Yields (Prepared K F) := by
  obtain ⟨ret, params⟩ := hc.signature
  unfold callNode
  dsimp only
  refine .guard fun _ => ?_
  have fixed : ∀ t ∈ (if c.signature.unspecified = true then [] else c.signature.params),
      t.Bounded := by
    split
    · nofun
    · exact allBounded_iff.mp params
  refine .bind (convertArguments_prepared h fixed) fun es hes => .guard fun _ => ?_
  split
  case h_1 => exact .pure (.node ⟨hc.1, ret.value, nofun, trivial⟩ hes)
  case h_2 => exact .pure (.node ⟨trivial, ret.value, nofun, trivial⟩
    (List.forall_mem_cons.mpr ⟨hc.1, hes⟩))

end Expr
end LiveC
