import LiveC.Proofs.ExpressionDerivations
import LiveC.Proofs.NameResolution
import LiveC.Proofs.ValueTyping

/-!
Pointer arithmetic. Every form of it scales distances by the size of what the pointer points to.
That this is an object of a known size, or void, is only checked where the pointer is on the left of
a sign; where it holds, all forms agree. The difference of pointers is divided by zero only if they
point to arrays of which a length is missing or zero.
-/

namespace LiveC

/-! ### Sizes -/

namespace CType

/-- What pointer arithmetic is for: objects of a known size, and void, which counts one byte. -/
def Steppable (t : CType) : Prop := t.isComplete = true ∨ t.isVoid = true

example : Steppable .void ∧ size .void = 1 := ⟨.inr rfl, rfl⟩

theorem Steppable.notFunction {t : CType} (h : t.Steppable) : t.isFunction = false := by
  obtain complete | void := h
  · exact isFunction_of_complete complete
  · cases t <;> first | rfl | cases void

theorem isPointer_of_isArithmetic {t : CType} (h : t.isArithmetic = true) :
    t.isPointer = false := by
  cases t <;> first | rfl | cases h

/-- An array of which a length is missing or zero. -/
def Hollow : CType → Prop
  | array element length => length.getD 0 = 0 ∨ Hollow element
  | _ => False

theorem bounds_of_checkedSize : (t : CType) → {n : Nat} → t.checkedSize = some n →
    n < Word.modulus ∧ (n = 0 → t.Hollow)
  | void, _, rfl | function .., _, rfl | double, _, rfl | pointer _, _, rfl => ⟨by decide, nofun⟩
  | int ⟨w, _⟩, _, rfl => by cases w <;> exact ⟨by decide +revert, nofun⟩
  | array element length, n, known => by
    obtain ⟨size, inner, total⟩ := Option.bind_eq_some_iff.mp known
    dsimp only at total
    split at total
    case isTrue small =>
      cases total
      refine ⟨small, fun zero => ?_⟩
      obtain none | missing := Nat.mul_eq_zero.mp zero
      · exact .inr ((bounds_of_checkedSize element inner).2 none)
      · exact .inl missing
    case isFalse => cases total

/-- Only the pointees that are hollow arrays make a word zero. -/
theorem hollow_of_size {t : CType} (h : BitVec.ofNat 64 t.size = 0) : t.Hollow := by
  have zero : t.size % Word.modulus = 0 := congrArg BitVec.toNat h
  unfold size at zero
  cases known : t.checkedSize with
  | none =>
      rw [known] at zero
      cases zero
  | some n =>
      rw [known, Option.getD_some] at zero
      obtain ⟨small, hollow⟩ := bounds_of_checkedSize t known
      exact hollow (Nat.mod_eq_of_lt small ▸ zero)

end CType

namespace Expr

variable {l r pointer distance : Expr} {p : CType}

/-! ### Distances -/

/-- A number of elements of a size as a distance in bytes: the number itself, a constant, or a
product. -/
inductive ScaledBy (size : Nat) (index : Expr) : Expr → Prop where
  | bytes : size = 1 → ScaledBy size index (index.convert (.int .long))
  | constant {m n : Note} {v : Word} : index.convert (.int .long) = .int m v →
      ScaledBy size index (.int n (v * BitVec.ofNat 64 size))
  | product {m n : Note} : ScaledBy size index
      (.binary m .mul (index.convert (.int .long)) (.int n (BitVec.ofNat 64 size)))

theorem scaledBy_scaleIndex (index : Expr) (p : CType) :
    ScaledBy p.size index (scaleIndex index (.pointer p)) := by
  have stride : strideOf (.pointer p) = p.size := rfl
  unfold scaleIndex
  rw [stride]
  dsimp only
  split
  case isTrue one => exact .bytes one
  case isFalse =>
    unfold fold
    split
    case h_1 m a _ b u constant literal long =>
      cases literal
      cases long
      have wraps : BinaryOp.foldInt? .mul .long a (BitVec.ofNat 64 p.size) =
          some (a * BitVec.ofNat 64 p.size) := congrArg some (IntType.wrap_w64 true _)
      rw [wraps]
      exact .constant constant
    case h_2 literal _ => cases literal
    case h_3 => exact .product

theorem pointerOffset_eq (op : BinaryOp) (h : pointer.ty = .pointer p) (index : Expr)
    (loc : Location) : ∃ d, ScaledBy p.size index d ∧
      pointerOffset op pointer index loc = .binary ⟨.pointer p, loc⟩ op pointer d := by
  refine ⟨_, scaledBy_scaleIndex index p, ?_⟩
  rw [pointerOffset, h]

/-! ### Forms -/

/-- The difference of two pointers: the distance in bytes, divided by the size unless that is one.
The divisor is zero only for hollow arrays. -/
def ScalesDifference (p : CType) (l r e : Expr) : Prop :=
  ∃ loc,
    let bytes := binary ⟨.int .long, loc⟩ .sub (l.convert (.int .long)) (r.convert (.int .long))
    p.size = 1 ∧ e = bytes ∨ ∃ size : Word, size = BitVec.ofNat 64 p.size ∧
      (size = 0 → p.Hollow) ∧ e = binary ⟨.int .long, loc⟩ .div bytes (int ⟨.int .long, loc⟩ size)

/-- What an operator on values makes of pointers. A distance is scaled, and where the pointer is on
its left, the pointee was looked at. -/
structure ScalesOperands (op : BinaryOp) (l r e : Expr) : Prop where
  distance {p : CType} {t : IntType} : l.ty = .pointer p → r.ty = .int t →
    (op = .add ∨ op = .sub) ∧ p.Steppable ∧
      ∃ loc d, ScaledBy p.size r d ∧ e = .binary ⟨.pointer p, loc⟩ op l d
  exchanged {p : CType} {t : IntType} : l.ty = .int t → r.ty = .pointer p →
    op = .add ∧ ∃ loc d, ScaledBy p.size l d ∧ e = .binary ⟨.pointer p, loc⟩ .add r d
  difference {p q : CType} : l.ty = .pointer p → r.ty = .pointer q →
    op = .sub ∧ p = q ∧ ScalesDifference p l r e

theorem arithmetic_scales (op : BinaryOp) (l r : Expr) (loc : Location) :
    (arithmetic op l r loc).Yields (ScalesOperands op l r) := by
  have distance {op : BinaryOp} {p : CType} {t : IntType} (hl : l.ty = .pointer p)
      (hr : r.ty = .int t) (sign : op = .add ∨ op = .sub)
      (steps : ¬(!p.isComplete && !p.isVoid) = true) :
      ScalesOperands op l r (pointerOffset op l r loc) := by
    obtain ⟨d, scaled, offset⟩ := pointerOffset_eq op hl r loc
    refine ⟨fun hl' _ => ?_, fun hl' _ => absurd (hl.symm.trans hl') nofun, fun _ hr' =>
      absurd (hr.symm.trans hr') nofun⟩
    cases hl.symm.trans hl'
    have steppable : p.Steppable := by
      simpa [CType.Steppable, Classical.or_iff_not_imp_left] using steps
    exact ⟨sign, steppable, loc, d, scaled, offset⟩
  unfold arithmetic
  split
  case h_1 hl hr => exact .ite (fun _ => .fail) fun steps => .pure (distance hl hr (.inl rfl) steps)
  case h_2 hl hr => exact .ite (fun _ => .fail) fun steps => .pure (distance hl hr (.inr rfl) steps)
  case h_3 hl hr =>
    obtain ⟨d, scaled, offset⟩ := pointerOffset_eq .add hr l loc
    refine .pure ⟨fun hl' _ => absurd (hl.symm.trans hl') nofun, fun _ hr' => ?_, fun hl' _ =>
      absurd (hl.symm.trans hl') nofun⟩
    cases hr.symm.trans hr'
    exact ⟨rfl, loc, d, scaled, offset⟩
  case h_4 p q hl hr =>
    refine .ite (fun _ => .fail) fun same => .pure ⟨fun _ hr' => absurd (hr.symm.trans hr') nofun,
      fun hl' _ => absurd (hl.symm.trans hl') nofun, fun hl' hr' => ?_⟩
    cases hl.symm.trans hl'
    cases hr.symm.trans hr'
    obtain rfl : p = q := by simpa using same
    refine ⟨rfl, rfl, loc, ?_⟩
    unfold pointerDifference
    dsimp only
    split
    case isTrue one => exact .inl ⟨one, rfl⟩
    case isFalse => exact .inr ⟨_, rfl, CType.hollow_of_size, rfl⟩
  case h_5 =>
    refine .guard fun accepted => ?_
    simp only [Bool.not_eq_true, Bool.not_eq_false'] at accepted
    have operands := CType.isArithmetic_of_accepted accepted
    have noPointer {s : CType} (arithmetic : s.isArithmetic = true) {p : CType}
        (ty : s = .pointer p) : False := by
      have isPointer := CType.isPointer_of_isArithmetic arithmetic
      rw [ty] at isPointer
      cases isPointer
    have scales {o : BinaryOp} (e : Expr) : (pure e : Typing Expr).Yields (ScalesOperands o l r) :=
      .pure ⟨fun hl _ => (noPointer operands.1 hl).elim, fun _ hr =>
        (noPointer operands.2 hr).elim, fun hl _ => (noPointer operands.1 hl).elim⟩
    exact .ite (fun _ => .skip fun _ => scales _) fun _ => scales _

/-- One of two values is a pointer and the other one a distance. -/
structure OffsetOperands (l r : Expr) (p : CType) (pointer distance : Expr) : Prop where
  sides : pointer = l ∧ distance = r ∨ pointer = r ∧ distance = l
  pointer_ty : pointer.ty = .pointer p
  distance_ty : ∃ t, distance.ty = .int t

theorem OffsetOperands.symm (h : OffsetOperands l r p pointer distance) :
    OffsetOperands r l p pointer distance :=
  ⟨h.sides.symm, h.pointer_ty, h.distance_ty⟩

/-- A subscript adds the scaled index, on whichever side it stands, to the pointer. -/
def ScalesSubscript (base index e : Expr) : Prop :=
  ∃ p pointer distance, OffsetOperands base index p pointer distance ∧ p.isVoid = false ∧
    p.isFunction = false ∧ ∃ loc d, ScaledBy p.size distance d ∧
      e = .deref ⟨p, loc⟩ (.binary ⟨.pointer p, loc⟩ .add pointer d)

/-- The subscript of a pointer and a distance. -/
theorem subscript_eq (h : OffsetOperands l.rvalue r.rvalue p pointer distance) (loc : Location) :
    subscript l r loc = (do
      if p.isVoid || p.isFunction then
        Typing.fail loc (.invalidSubscript (.pointer p))
      return deref ⟨p, loc⟩ (pointerOffset .add pointer distance loc)) := by
  obtain ⟨sides, ty, t, isInt⟩ := h
  have sum : (pointerOffset .add pointer distance loc).ty = .pointer p := ty
  unfold subscript
  dsimp only
  obtain ⟨rfl, rfl⟩ | ⟨rfl, rfl⟩ := sides <;>
  · rw [ty, isInt]
    simp only [pure_bind, sum, CType.pointee?, Option.getD_some]

theorem subscript_scales (base index : Expr) (loc : Location) :
    (subscript base index loc).Yields (ScalesSubscript base.rvalue index.rvalue) := by
  have object {p : CType} {pointer distance : Expr}
      (h : OffsetOperands base.rvalue index.rvalue p pointer distance) :
      (subscript base index loc).Yields (ScalesSubscript base.rvalue index.rvalue) := by
    obtain ⟨d, scaled, offset⟩ := pointerOffset_eq .add h.pointer_ty distance loc
    rw [subscript_eq h]
    refine .guard fun valid => .pure ?_
    simp only [Bool.or_eq_true, not_or, Bool.not_eq_true] at valid
    exact ⟨p, pointer, distance, h, valid.1, valid.2, loc, d, scaled, by rw [offset]⟩
  by_cases sides : ∃ p pointer distance, OffsetOperands base.rvalue index.rvalue p pointer distance
  · obtain ⟨p, pointer, distance, h⟩ := sides
    exact object h
  · unfold subscript
    dsimp only
    split
    case h_1 hb hi => exact absurd ⟨_, _, _, .inl ⟨rfl, rfl⟩, hb, _, hi⟩ sides
    case h_2 hb hi => exact absurd ⟨_, _, _, .inr ⟨rfl, rfl⟩, hi, _, hb⟩ sides
    case h_3 => exact .bind (P := fun _ => False) nofun nofun

/-- An assignment combined with an operation scales the distance that it adds to a pointer. -/
def ScalesAssignment (op : BinaryOp) (target value e : Expr) : Prop :=
  ∀ p, target.ty = .pointer p → (op = .add ∨ op = .sub) ∧
    ∃ loc d, ScaledBy p.size value d ∧ e = .opAssign ⟨.pointer p, loc⟩ op (.pointer p) target d

theorem opAssignment_scales (op : BinaryOp) (target value : Expr) (loc : Location) :
    (opAssignment op target value loc).Yields (ScalesAssignment op target value.rvalue) := by
  refine .ite (fun sign => .guard fun _ => .pure fun p ty => ?_) fun other => .guard fun accepted =>
    .pure fun p ty => ?_
  · simp only [Bool.and_eq_true, Bool.or_eq_true, beq_iff_eq] at sign
    refine ⟨sign.2, loc, _, scaledBy_scaleIndex value.rvalue p, ?_⟩
    rw [ty]
  · simp only [Bool.not_eq_true, Bool.not_eq_false'] at accepted
    have arithmetic := (CType.isArithmetic_of_accepted accepted).1
    rw [ty] at arithmetic
    cases arithmetic

/-- A step changes a pointer by the size. -/
def ScalesStep (increment : Bool) (target e : Expr) : Prop :=
  ∀ p, target.ty = .pointer p → ∃ loc before, e = .step ⟨.pointer p, loc⟩
    (if increment then BitVec.ofNat 64 p.size else -BitVec.ofNat 64 p.size) before target

theorem stepNode_scales (target : Expr) (increment before : Bool) (loc : Location) :
    (stepNode target increment before loc).Yields (ScalesStep increment target) := by
  refine .ite (fun _ => .fail) fun _ => .pure fun p ty => ⟨loc, before, ?_⟩
  rw [ty]
  rfl

/-! ### Where the forms agree -/

/-- The pointees of two values may be stepped over. -/
def StepsOver (l r : Expr) : Prop :=
  ∀ p, l.ty = .pointer p ∨ r.ty = .pointer p → p.Steppable

theorem StepsOver.of_offset (h : StepsOver l r) (offset : OffsetOperands l r p pointer distance) :
    p.Steppable := by
  obtain ⟨⟨rfl, -⟩ | ⟨rfl, -⟩, ty, -⟩ := offset
  · exact h p (.inl ty)
  · exact h p (.inr ty)

section

variable {e : Expr}

/-- The sum of a pointer and a distance, where the pointee may be stepped over. -/
theorem add_gives (h : OffsetOperands l r p pointer distance) (steps : p.Steppable)
    (loc : Location) :
    (arithmetic .add l r loc).Gives e ↔ e = pointerOffset .add pointer distance loc := by
  obtain ⟨sides, ty, t, isInt⟩ := h
  have looked : ¬(!p.isComplete && !p.isVoid) = true := by
    obtain complete | void := steps
    · simp [complete]
    · simp [void]
  have add : arithmetic .add l r loc = pure (pointerOffset .add pointer distance loc) := by
    unfold arithmetic
    obtain ⟨rfl, rfl⟩ | ⟨rfl, rfl⟩ := sides
    · rw [ty, isInt]
      exact if_neg looked
    · rw [ty, isInt]
  rw [add, Typing.gives_pure]

theorem subscript_gives (h : OffsetOperands l.rvalue r.rvalue p pointer distance)
    (notVoid : p.isVoid = false) (notFunction : p.isFunction = false) (loc : Location) :
    (subscript l r loc).Gives e ↔
      e = deref ⟨p, loc⟩ (pointerOffset .add pointer distance loc) := by
  rw [subscript_eq h, notVoid, notFunction]
  exact Typing.gives_pure

/-- A sum does not depend on where it stands. -/
theorem bare_pointerOffset (op : BinaryOp) (l r : Expr) (loc place : Location) :
    (pointerOffset op l r loc).bare = (pointerOffset op l r place).bare := by
  rw [pointerOffset_bare, pointerOffset_bare]

theorem bare_deref_pointerOffset (op : BinaryOp) (l r : Expr) {n m : Note} (h : n.ty = m.ty)
    (loc place : Location) : (deref n (pointerOffset op l r loc)).bare =
      (deref m (pointerOffset op l r place)).bare := by
  rw [bare, bare, bare_pointerOffset op l r loc place, Note.bare, Note.bare, h]

/-- What is a pointer and has been added is the sum of a pointer and a distance. -/
theorem add_isPointer (l r : Expr) (loc : Location) : (arithmetic .add l r loc).Yields fun e =>
    e.ty.isPointer = true → ∃ p pointer distance, OffsetOperands l r p pointer distance := by
  unfold arithmetic
  split
  case h_1 hl hr => exact fun _ _ _ _ _ => ⟨_, l, r, .inl ⟨rfl, rfl⟩, hl, _, hr⟩
  case h_3 hl hr => exact fun _ _ _ _ _ => ⟨_, r, l, .inr ⟨rfl, rfl⟩, hr, _, hl⟩
  case h_2 absurd _ _ | h_4 absurd _ _ => cases absurd
  case h_5 =>
    refine .guard fun accepted => ?_
    simp only [Bool.not_eq_true, Bool.not_eq_false'] at accepted
    have arithmetic := CType.isArithmetic_of_takes (CType.takes_operationType accepted)
    have folded {o : BinaryOp} {l' r' : Expr} {n : Note} (h : n.ty.isArithmetic = true) {α : Prop}
        (isPointer : (fold o l' r' n).ty.isPointer = true) : α := by
      rw [ty_fold, CType.isPointer_of_isArithmetic h] at isPointer
      cases isPointer
    exact .ite (fun _ => .skip fun _ => .pure (folded arithmetic)) fun _ =>
      .pure (folded arithmetic)

/-- The object that a sum points to. -/
theorem indirection_gives (ty : pointer.ty = .pointer p) (notVoid : p.isVoid = false)
    (place loc : Location) : ((pointerOffset .add pointer distance place).indirection loc).Gives e ↔
      e = deref ⟨p, loc⟩ (pointerOffset .add pointer distance place) := by
  have sum : (pointerOffset .add pointer distance place).ty = .pointer p := ty
  have same : (pointerOffset .add pointer distance place).rvalue =
      pointerOffset .add pointer distance place := by
    unfold rvalue
    rw [sum]
  unfold indirection
  rw [same]
  dsimp only
  rw [sum]
  dsimp only
  rw [notVoid]
  exact Typing.gives_pure

/-- Only pointers have objects, and void is none. -/
theorem indirection_isPointer (e : Expr) (loc : Location) : (e.indirection loc).Yields fun _ =>
    ∃ p, e.rvalue.ty = .pointer p ∧ p.isVoid = false := by
  unfold indirection
  dsimp only
  split
  case h_1 p ty =>
    refine .ite (fun _ => .fail) fun void => ?_
    have object : ∃ p, e.rvalue.ty = .pointer p ∧ p.isVoid = false :=
      ⟨p, ty, Bool.eq_false_iff.mpr void⟩
    split
    · exact .ite (fun _ => .pure object) fun _ => .pure object
    · exact .pure object
  case h_2 => exact .fail

/-- What a sum points to is what the sum of a pointer and a distance points to. -/
theorem exists_offset_of_indirection {sum : Expr} {loc place : Location} (steps : StepsOver l r)
    (adds : (arithmetic .add l r place).Gives sum) (gives : (sum.indirection loc).Gives e) :
    ∃ p pointer distance, OffsetOperands l r p pointer distance ∧ p.Steppable ∧
      p.isVoid = false ∧ e = deref ⟨p, loc⟩ (pointerOffset .add pointer distance place) := by
  obtain ⟨q, pointee, notVoid⟩ := gives.has (indirection_isPointer _ _)
  rw [rvalue_of_decayed (adds.has (arithmetic_isValue _ _ _ _)).decayed] at pointee
  obtain ⟨p, pointer, distance, offset⟩ := adds.has (add_isPointer _ _ _) (by rw [pointee]; rfl)
  have steppable := steps.of_offset offset
  obtain rfl := (add_gives offset steppable place).mp adds
  obtain rfl : p = q := CType.pointer.inj (offset.pointer_ty.symm.trans pointee)
  exact ⟨p, pointer, distance, offset, steppable, notVoid,
    (indirection_gives offset.pointer_ty notVoid place loc).mp gives⟩

end

end Expr

namespace SourceExpr

open LiveC.Expr

/-- The arithmetic of an expression scales what it does with pointers. -/
def ScalesPointers : SourceExpr → Prop
  | binary e (.arith op) l r => ScalesOperands op l.typed.rvalue r.typed.rvalue e
  | subscript e base index => ScalesSubscript base.typed.rvalue index.typed.rvalue e
  | assign e (some op) target value => ScalesAssignment op target.typed value.typed.rvalue e
  | stepped e increment target => ScalesStep increment target.typed e
  | unary e .increment target => ScalesStep true target.typed e
  | unary e .decrement target => ScalesStep false target.typed e
  | _ => True

theorem Node.scalesPointers {w : SourceExpr} (h : w.Node) : w.ScalesPointers := by
  cases w with
  | binary e op l r =>
      obtain ⟨-, -, loc, gives⟩ := h
      cases op with
      | arith op => exact gives.has (arithmetic_scales _ _ _ _)
      | logic | compare => trivial
  | subscript e base index =>
      obtain ⟨-, loc, gives⟩ := h
      exact gives.has (subscript_scales _ _ _)
  | assign e op? target value =>
      obtain ⟨-, -, loc, -, gives⟩ := h
      cases op? with
      | none => trivial
      | some op => exact gives.has (opAssignment_scales _ _ _ _)
  | stepped e increment target =>
      obtain ⟨-, loc, gives⟩ := h
      exact gives.has (stepNode_scales _ _ _ _)
  | unary e op target =>
      obtain ⟨-, loc, gives⟩ := h
      cases op with
      | increment | decrement => exact gives.has (stepNode_scales _ _ _ _)
      | _ => trivial
  | _ => trivial

/-- A form of expressions is derived, and comes to a tree wherever it stands. -/
def ComesTo (form : Expr → SourceExpr → Prop) (e : Expr) : Prop :=
  (∃ e' w, form e' w ∧ w.Derived) ∧ ∀ e' w, form e' w → w.Derived → e'.bare = e.bare

/-- The sum of two expressions in parentheses. -/
def sumOf (l r : SourceExpr) (e : Expr) (w : SourceExpr) : Prop :=
  w = binary e (.arith .add) (parens l) (parens r)

/-- The subscript of two expressions in parentheses. -/
def subscriptOf (l r : SourceExpr) (e : Expr) (w : SourceExpr) : Prop :=
  w = subscript e (parens l) (parens r)

/-- The object that the sum of two expressions points to. -/
def objectOf (l r : SourceExpr) (e : Expr) (w : SourceExpr) : Prop :=
  ∃ sum, w = unary e .indirection (parens (binary sum (.arith .add) (parens l) (parens r)))

/-- Where a pointee may be stepped over, a sum may be exchanged, and a subscript is the object that
a sum points to: the other form is derived as well and comes to the same tree. -/
def FormsAgree : SourceExpr → Prop
  | binary e (.arith .add) l r => ∀ p pointer distance,
    OffsetOperands l.typed.rvalue r.typed.rvalue p pointer distance → p.Steppable →
      ComesTo (sumOf r l) e
  | subscript e base index =>
    StepsOver base.typed.rvalue index.typed.rvalue → ComesTo (objectOf base index) e
  | unary e .indirection v => ∀ sum l r, v.inside = binary sum (.arith .add) l r →
    StepsOver l.typed.rvalue r.typed.rvalue → ComesTo (subscriptOf l r) e
  | _ => True

section

variable {l r : SourceExpr} {e : Expr} {loc : Location} {p : CType} {pointer distance : Expr}

theorem derived_parens (h : l.Derived) : (parens l).Derived := .one trivial rfl h

/-- A sum in parentheses. -/
theorem derived_sum (hl : l.Derived) (hr : r.Derived)
    (gives : (arithmetic .add l.typed.rvalue r.typed.rvalue loc).Gives e) :
    (binary e (.arith .add) (parens l) (parens r)).Derived :=
  .two ⟨Nat.zero_le _, Nat.succ_pos _, loc, gives⟩ rfl (derived_parens hl) (derived_parens hr)

variable (h : OffsetOperands l.typed.rvalue r.typed.rvalue p pointer distance)
include h

theorem comesTo_sumOf (hl : l.Derived) (hr : r.Derived) (steps : p.Steppable)
    (place : Location) : ComesTo (sumOf l r) (pointerOffset .add pointer distance place) := by
  refine ⟨⟨_, _, rfl, derived_sum hl hr ((add_gives h steps place).mpr rfl)⟩, ?_⟩
  rintro e _ rfl derived
  obtain ⟨-, -, loc, gives⟩ := derived.here
  obtain rfl := (add_gives h steps loc).mp gives
  exact bare_pointerOffset ..

theorem comesTo_subscriptOf (hl : l.Derived) (hr : r.Derived) (notVoid : p.isVoid = false)
    (notFunction : p.isFunction = false) (loc place : Location) :
    ComesTo (subscriptOf l r) (deref ⟨p, loc⟩ (pointerOffset .add pointer distance place)) := by
  have gives := (subscript_gives h notVoid notFunction place).mpr rfl
  refine ⟨⟨_, _, rfl, .two ⟨rfl, place, gives⟩ rfl (derived_parens hl) (derived_parens hr)⟩, ?_⟩
  rintro e _ rfl derived
  obtain ⟨-, loc, gives⟩ := derived.here
  obtain rfl := (subscript_gives h notVoid notFunction loc).mp gives
  exact bare_deref_pointerOffset _ _ _ rfl _ _

theorem comesTo_objectOf (hl : l.Derived) (hr : r.Derived) (steps : p.Steppable)
    (notVoid : p.isVoid = false) (loc place : Location) :
    ComesTo (objectOf l r) (deref ⟨p, loc⟩ (pointerOffset .add pointer distance place)) := by
  have sum := derived_sum hl hr ((add_gives h steps place).mpr rfl)
  have gives : ((pointerOffset .add pointer distance place).indirection place).Gives _ :=
    (indirection_gives h.pointer_ty notVoid place place).mpr rfl
  refine ⟨⟨_, _, ⟨_, rfl⟩, .one ⟨Nat.zero_le _, place, gives⟩ rfl (derived_parens sum)⟩, ?_⟩
  rintro e _ ⟨sum, rfl⟩ derived
  obtain ⟨-, loc, gives⟩ := derived.here
  obtain ⟨-, -, place', adds⟩ := ((derived.part (.head _)).part (.head _)).here
  obtain rfl := (add_gives h steps place').mp adds
  obtain rfl := (indirection_gives h.pointer_ty notVoid place' loc).mp gives
  exact bare_deref_pointerOffset _ _ _ rfl _ _

end

theorem Derived.formsAgree {w : SourceExpr} (h : w.Derived) : w.FormsAgree := by
  have here := h.here
  cases w with
  | binary e op l r =>
      cases op with
      | arith op =>
          cases op with
          | add =>
              intro p pointer distance offset steps
              obtain ⟨-, -, loc, gives⟩ := here
              obtain rfl := (add_gives offset steps loc).mp gives
              exact comesTo_sumOf offset.symm (h.part (.tail _ (.head _))) (h.part (.head _))
                steps loc
          | _ => trivial
      | logic | compare => trivial
  | subscript e base index =>
      intro steps
      obtain ⟨-, loc, gives⟩ := here
      obtain ⟨p, pointer, distance, offset, notVoid, notFunction, -⟩ :=
        gives.has (subscript_scales _ _ _)
      obtain rfl := (subscript_gives offset notVoid notFunction loc).mp gives
      exact comesTo_objectOf offset (h.part (.head _)) (h.part (.tail _ (.head _)))
        (steps.of_offset offset) notVoid loc loc
  | unary e op v =>
      cases op with
      | indirection =>
          intro sum l r inside steps
          obtain ⟨-, loc, gives⟩ := here
          have derived : (binary sum (.arith .add) l r).Derived :=
            inside ▸ Derived.inside (h.part (.head _))
          have value : v.typed = sum := by rw [← typed_inside, inside]; rfl
          obtain ⟨-, -, place, adds⟩ := derived.here
          rw [value] at gives
          obtain ⟨p, pointer, distance, offset, steppable, notVoid, rfl⟩ :=
            exists_offset_of_indirection steps adds gives
          exact comesTo_subscriptOf offset (derived.part (.head _))
            (derived.part (.tail _ (.head _))) notVoid steppable.notFunction loc place
      | _ => trivial
  | _ => trivial

end SourceExpr

namespace Parser

/-- In every expression that is accepted, pointer arithmetic is scaled by the sizes of the pointees,
and where these are void or objects of a known size, its forms agree. -/
theorem pointers_scaled {n : Nat} {p : Parser Expr} (reads : ReadsExpression (productions n) p)
    {s t : ParserState} {e : Expr} (run : p s = .ok e t) :
    ∃ w : SourceExpr, s.kinds = w.kinds ++ t.kinds ∧ w.typed = e ∧ w.Derived ∧
      w.Everywhere fun v => v.ScalesPointers ∧ v.FormsAgree := by
  obtain ⟨w, tokens, typed, derived⟩ := exists_derived reads run
  exact ⟨w, tokens, typed, derived, derived.mono fun _ h =>
    ⟨h.here.scalesPointers, SourceExpr.Derived.formsAgree h⟩⟩

/-- A subscript of which the index is in front. -/
theorem pointers_scaled_subscript : ∃ (s t : ParserState) (e : Expr) (w : SourceExpr),
    s.kinds = [.int 2 false false true, .punct .lbracket, .ident "p", .punct .rbracket] ∧
      t.kinds = [] ∧ expression (productions 8) s = .ok e t ∧ s.kinds = w.kinds ++ t.kinds ∧
        w.typed = e ∧ w.Derived ∧ w.Everywhere fun v => v.ScalesPointers ∧ v.FormsAgree := by
  let s : ParserState :=
    { rest := [⟨.int 2 false false true, .start⟩, ⟨.punct .lbracket, .start⟩, ⟨.ident "p", .start⟩,
        ⟨.punct .rbracket, .start⟩]
      endLoc := .start
      scopes := { blocks := [[("p", .local 0)]] }
      locals := [⟨"p", .pointer (.array (.int .int) (some 3))⟩] }
  have accepts : acceptsAll (expression (productions 8)) s = true := by decide +kernel
  obtain ⟨e, t, run, atEnd⟩ := exists_of_acceptsAll accepts
  obtain ⟨w, tokens, typed, derived, scaled⟩ := pointers_scaled .expression run
  exact ⟨s, t, e, w, rfl, atEnd, run, tokens, typed, derived, scaled⟩

end Parser

/-- What a division by a constant divides by. -/
def Expr.divisor? : Expr → Option Word
  | binary _ .div _ (int _ v) => some v
  | _ => none

/-- Pointers to arrays of unknown length are subtracted with a division by zero, and so are those to
an array that its initialiser leaves empty. Pointers to the former are stepped over and have
subscripts; only a sum with the pointer on its left is refused. -/
theorem parseSource_of_unsizedPointers :
    (parseSource ("long d(int (*p)[], int (*q)[]) \x7b return p - q; \x7d " ++
      "int a[] = \x7b\x7d; long e(void) \x7b return &a - &a; \x7d") []).toOption.any (fun r =>
        (r.1.functions.map fun f => match f.body with
          | [.return (some e)] => e.divisor?
          | _ => none) = [some 0, some 0]) = true ∧
    (parseSource ("long d(int (*p)[]) \x7b " ++
      "1 + p; 1[p]; p[1]; p += 1; ++p; 1 + d; return 0; \x7d") []).isOk = true ∧
    refusals "long d(int (*p)[]) \x7b p + 1; *(p + 1); d + 1; return 0; \x7d" =
      List.replicate 3 "arithmetic on a pointer to an incomplete type" := by
  refine ⟨?_, ?_, ?_⟩
  · rw [parseSource_of_bytes (Text.toByteChars_append_of (Text.toByteChars_of_all ?_)
      (Text.toByteChars_of_all ?_))]
    all_goals decide +kernel
  · rw [parseSource_of_bytes (Text.toByteChars_append_of (Text.toByteChars_of_all ?_)
      (Text.toByteChars_of_all ?_))]
    all_goals decide +kernel
  · rw [refusals_of_bytes (Text.toByteChars_of_all ?_)]
    all_goals decide +kernel

end LiveC
