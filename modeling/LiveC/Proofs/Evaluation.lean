import Mathlib.Algebra.Group.Int.Defs
import Mathlib.Algebra.Group.Nat.Defs
import LiveC.CType.IntType
import LiveC.Lowering.Expression
import LiveC.Machine.State
import LiveC.Typing.Constant

/-!
Integers of a type. A number is reduced to a type by taking its representative in the
type's range, which is what `wrap` does to the word that holds it. Sums, differences and
products may be reduced at any time; quotients, remainders, right shifts and comparisons
need operands that are in range.

The meaning of expressions, on integers and without a machine stack. An operand is the
number that its type represents; an operation is carried out on integers and its result
reduced to the type of the node. Doubles and calls have no meaning here. Arithmetic on words
agrees with arithmetic on the integers that the words stand for.
-/

namespace LiveC

theorem ofInt_toNat (v : Word) : BitVec.ofInt 64 (v.toNat : Int) = v := by
  rw [BitVec.ofInt_natCast, BitVec.ofNat_toNat, BitVec.setWidth_eq]

namespace IntType

theorem wrap_w64 (s : Bool) (v : Word) : (⟨.w64, s⟩ : IntType).wrap v = v := by
  cases s <;> simp [wrap, Width.bits, Width.bytes]

/-- The representative of an integer in the range of a type. -/
def reduce (t : IntType) (z : Int) : Int :=
  if t.signed then z.bmod (2 ^ t.width.bits) else z % (2 ^ t.width.bits : Nat)

/-- The integer is in the range of the type. -/
def Represents (t : IntType) (z : Int) : Prop :=
  if t.signed then -2 ^ (t.width.bits - 1) ≤ z ∧ z < 2 ^ (t.width.bits - 1)
  else 0 ≤ z ∧ z < 2 ^ t.width.bits

instance (t : IntType) (z : Int) : Decidable (t.Represents z) :=
  inferInstanceAs (Decidable (if t.signed then _ else _))

theorem represents_reduce (t : IntType) (z : Int) : t.Represents (t.reduce z) := by
  obtain ⟨w, s⟩ := t
  cases w <;> cases s <;>
    simp [Represents, reduce, Width.bits, Width.bytes, Int.bmod_def] <;> omega

theorem reduce_of_represents {t : IntType} {z : Int} (h : t.Represents z) :
    t.reduce z = z := by
  obtain ⟨w, s⟩ := t
  revert h
  cases w <;> cases s <;>
    simp [Represents, reduce, Width.bits, Width.bytes, Int.bmod_def] <;> omega

theorem reduce_reduce (t : IntType) (z : Int) : t.reduce (t.reduce z) = t.reduce z :=
  reduce_of_represents (represents_reduce t z)

/-- The canonical form of a word is the word of the reduced number. -/
theorem wrap_ofInt (t : IntType) (z : Int) :
    t.wrap (BitVec.ofInt 64 z) = BitVec.ofInt 64 (t.reduce z) := by
  obtain ⟨w, s⟩ := t
  apply BitVec.eq_of_toInt_eq
  cases w <;> cases s <;>
    simp [wrap, reduce, Width.bits, Width.bytes, BitVec.toInt_signExtend, Int.bmod_def] <;>
    omega

/-- A canonical word of a type holds the number that it stands for. -/
theorem ofInt_value (t : IntType) (v : Word) : BitVec.ofInt 64 (t.value v) = v := by
  simp only [value]
  split
  · exact BitVec.ofInt_toInt
  · exact ofInt_toNat v

theorem wrap_wrap (t : IntType) (v : Word) : t.wrap (t.wrap v) = t.wrap v := by
  rw [← ofInt_value t v, wrap_ofInt, wrap_ofInt, reduce_reduce]

theorem value_ofInt {t : IntType} {z : Int} (h : t.Represents z) :
    t.value (BitVec.ofInt 64 z) = z := by
  obtain ⟨w, s⟩ := t
  revert h
  cases w <;> cases s <;>
    simp [Represents, value, Width.bits, Width.bytes, Int.bmod_def] <;> omega

/-- The number that a canonical word stands for is in range. -/
theorem represents_value {t : IntType} {v : Word} (h : t.wrap v = v) :
    t.Represents (t.value v) := by
  have canonical : BitVec.ofInt 64 (t.reduce (t.value v)) = v := by
    rw [← wrap_ofInt, ofInt_value, h]
  rw [← canonical, value_ofInt (represents_reduce t _)]
  exact represents_reduce t _

theorem toInt_ofInt {t : IntType} {z : Int} (hs : t.signed = true) (h : t.Represents z) :
    (BitVec.ofInt 64 z).toInt = z := by
  have hv := value_ofInt h
  rwa [value, if_pos hs] at hv

theorem toNat_ofInt {t : IntType} {z : Int} (hs : t.signed = false) (h : t.Represents z) :
    ((BitVec.ofInt 64 z).toNat : Int) = z := by
  have hv := value_ofInt h
  rwa [value, if_neg (by simp [hs])] at hv

theorem nonneg_of_represents {t : IntType} {z : Int} (hs : t.signed = false)
    (h : t.Represents z) : 0 ≤ z := by
  rw [Represents, if_neg (by simp [hs])] at h
  exact h.1

/-- Words of a type are in the order of their numbers. -/
theorem order_ofInt {t : IntType} {a b : Int} (ha : t.Represents a) (hb : t.Represents b) :
    Word.order t.signed (BitVec.ofInt 64 a) (BitVec.ofInt 64 b) = compare a b := by
  cases hs : t.signed with
  | true => rw [Word.order, if_pos rfl, toInt_ofInt hs ha, toInt_ofInt hs hb]
  | false =>
      have numbers : compare a b = compare ((BitVec.ofInt 64 a).toNat : Int)
          (BitVec.ofInt 64 b).toNat := by rw [toNat_ofInt hs ha, toNat_ofInt hs hb]
      rw [numbers]
      simp only [Word.order, Bool.false_eq_true, if_false, compare, compareOfLessAndEq,
        Int.ofNat_lt, Int.natCast_inj]

end IntType
end LiveC

/-! ## Evaluation -/

namespace LiveC

/-- Why an expression has no value. -/
inductive Undefined where
  /-- A division by zero, or of the least word by -1. -/
  | division
  /-- An access to memory that is set aside. -/
  | access
  /-- A double, a call, or an operand that designates nothing. -/
  | unsupported
  deriving DecidableEq, Repr

/-- An operation on integers. Counts of shifts are taken modulo the width of a word. -/
def BinaryOp.apply (op : BinaryOp) (a b : Int) : Except Undefined Int :=
  let divides := b ≠ 0 ∧ ¬(a = Word.least ∧ b = -1)
  match op with
  | add => .ok (a + b)
  | sub => .ok (a - b)
  | mul => .ok (a * b)
  | div => if divides then .ok (a.tdiv b) else .error .division
  | rem => if divides then .ok (a.tmod b) else .error .division
  | shl => .ok (a * 2 ^ (b % 64).toNat)
  | shr => .ok (a / 2 ^ (b % 64).toNat)
  | bitAnd => .ok (BitVec.ofInt 64 a &&& BitVec.ofInt 64 b).toInt
  | bitOr => .ok (BitVec.ofInt 64 a ||| BitVec.ofInt 64 b).toInt
  | bitXor => .ok (BitVec.ofInt 64 a ^^^ BitVec.ofInt 64 b).toInt

def UnaryOp.apply (op : UnaryOp) (a : Int) : Int :=
  match op with
  | neg => -a
  | bitNot => -a - 1

/-- Where expressions find objects, and the memory that they must leave alone. -/
structure Surroundings where
  varAt : Nat → Word
  globalAt : String → Word
  stringAt : Nat → Word
  reserved : Word → Bool

/-- Evaluation reads and changes memory, or stops. -/
abbrev Evaluation := StateT Memory (Except Undefined)

namespace Surroundings

open Lowering (machineInt)

/-- Refuses an access to reserved memory. -/
def access (s : Surroundings) (a : Word) (n : Nat) : Evaluation Unit :=
  if (List.range n).any fun i => s.reserved (a + BitVec.ofNat 64 i) then throw .access else return

/-- The number in an object of an integer type. -/
def readInt (s : Surroundings) (t : IntType) (a : Word) : Evaluation Int := do
  s.access a t.size
  return t.reduce ((← get).load a t.size).toNat

/-- The value of the object of a type at an address; of an array or function the address
itself is the value. -/
def read (s : Surroundings) (ty : CType) (a : Word) : Evaluation Int :=
  match ty with
  | .int t => s.readInt t a
  | .pointer _ => s.readInt .ulong a
  | .array .. | .function .. => return a.toNat
  | .void => return 0
  | .double => throw .unsupported

/-- Stores a number into the object of a scalar type. -/
def write (s : Surroundings) (ty : CType) (a : Word) (v : Int) : Evaluation Unit :=
  match ty.intType? with
  | some t => do
    s.access a t.size
    modify (·.store a t.size (BitVec.ofInt 64 v))
  | none => throw .unsupported

mutual

/-- The value of an expression; it means nothing if the type is void. -/
@[simp] def value (s : Surroundings) : Expr → Evaluation Int
  | .int n v => return (machineInt n.ty).value v
  | .str _ id => return (s.stringAt id).toNat
  | .var n id => s.read n.ty (s.varAt id)
  | .global n name => s.read n.ty (s.globalAt name)
  | .deref n e => do s.read n.ty (BitVec.ofInt 64 (← value s e))
  | .addrOf _ e => do return (← place s e).toNat
  | .unary n op e => do return (machineInt n.ty).reduce (op.apply (← value s e))
  | .binary n op l r => do
    let a ← value s l
    let b ← value s r
    return (machineInt n.ty).reduce (← op.apply a b)
  | .compare _ op l r => do
    let a ← value s l
    let b ← value s r
    return if op.holds (compare a b) then 1 else 0
  | .logic _ .and l r => do
    if (← value s l) = 0 then return 0 else return if (← value s r) = 0 then 0 else 1
  | .logic _ .or l r => do
    if (← value s l) ≠ 0 then return 1 else return if (← value s r) = 0 then 0 else 1
  | .assign _ target e => do
    let a ← place s target
    let v ← value s e
    s.write target.ty a v
    return v
  | .opAssign _ op opTy target e => do
    let a ← place s target
    let b ← value s e
    let old ← s.read target.ty a
    let result := (machineInt opTy).reduce (← op.apply ((machineInt opTy).reduce old) b)
    let v := (machineInt target.ty).reduce result
    s.write target.ty a v
    return v
  | .step _ delta before target => do
    let a ← place s target
    let old ← s.read target.ty a
    let v := (machineInt target.ty).reduce (old + delta.toInt)
    s.write target.ty a v
    return if before then v else old
  | .cond _ c t f => do if (← value s c) ≠ 0 then value s t else value s f
  | .cast n e => do
    let v ← value s e
    return if n.ty.isVoid then v else (machineInt n.ty).reduce v
  | .comma _ l r => do
    let _ ← value s l
    value s r
  | .float .. | .call .. | .callPointer .. => throw .unsupported

/-- The address of the object or function that an expression designates. -/
@[simp] def place (s : Surroundings) : Expr → Evaluation Word
  | .var _ id => return s.varAt id
  | .global _ name => return s.globalAt name
  | .str _ id => return s.stringAt id
  | .deref _ e => return BitVec.ofInt 64 (← value s e)
  | _ => throw .unsupported

end

end Surroundings

/-! ### Arithmetic -/

open IntType

/-- Only zero is stored as the zero word. -/
theorem IntType.ofInt_eq_zero {t : IntType} {a : Int} (ha : t.Represents a) :
    BitVec.ofInt 64 a = 0 ↔ a = 0 := by
  constructor
  · intro h
    have hv := value_ofInt ha
    rw [h] at hv
    simpa [value] using hv.symm
  · rintro rfl
    rfl

theorem ofInt_sub (a b : Int) :
    BitVec.ofInt 64 (a - b) = BitVec.ofInt 64 a - BitVec.ofInt 64 b := by
  rw [Int.sub_eq_add_neg, BitVec.ofInt_add, BitVec.ofInt_neg, BitVec.sub_eq_add_neg]

theorem UnaryOp.wrap_neg (t : IntType) (a : Int) :
    t.wrap (-BitVec.ofInt 64 a) = BitVec.ofInt 64 (t.reduce (neg.apply a)) := by
  rw [← BitVec.ofInt_neg, wrap_ofInt]
  rfl

theorem UnaryOp.wrap_bitNot (t : IntType) (a : Int) :
    t.wrap (~~~BitVec.ofInt 64 a) = BitVec.ofInt 64 (t.reduce (bitNot.apply a)) := by
  rw [← wrap_ofInt, BitVec.not_eq_neg_add, apply, ofInt_sub, BitVec.ofInt_neg]
  rfl

namespace BinaryOp

theorem ofInt_shiftLeft (a : Int) (n : Nat) :
    BitVec.ofInt 64 a <<< n = BitVec.ofInt 64 (a * 2 ^ n) := by
  have power : BitVec.twoPow 64 n = BitVec.ofInt 64 (2 ^ n : Nat) := by
    apply BitVec.eq_of_toNat_eq
    rw [BitVec.toNat_twoPow, BitVec.ofInt_natCast, BitVec.toNat_ofNat]
  rw [BitVec.shiftLeft_eq_mul_twoPow, power, BitVec.ofInt_mul, Int.natCast_pow]
  rfl

theorem toNat_emod_ofInt (b : Int) : (BitVec.ofInt 64 b).toNat % 64 = (b % 64).toNat := by
  simp only [BitVec.toNat_ofInt]
  omega

theorem ofInt_sshiftRight {t : IntType} {a : Int} (hs : t.signed = true)
    (ha : t.Represents a) (n : Nat) :
    (BitVec.ofInt 64 a).sshiftRight n = BitVec.ofInt 64 (a / 2 ^ n) := by
  rw [← BitVec.ofInt_toInt (x := (BitVec.ofInt 64 a).sshiftRight n), BitVec.toInt_sshiftRight,
    toInt_ofInt hs ha, Int.shiftRight_eq_div_pow]
  simp

theorem ofInt_ushiftRight {t : IntType} {a : Int} (hs : t.signed = false)
    (ha : t.Represents a) (n : Nat) :
    BitVec.ofInt 64 a >>> n = BitVec.ofInt 64 (a / 2 ^ n) := by
  have quotient : a / 2 ^ n = ((BitVec.ofInt 64 a >>> n).toNat : Int) := by
    rw [BitVec.toNat_ushiftRight, Nat.shiftRight_eq_div_pow, Int.natCast_ediv,
      toNat_ofInt hs ha, Int.natCast_pow]
    rfl
  rw [quotient, ofInt_toNat]

/-- Quotients and remainders of words; those of signed words round toward zero. -/
theorem ofInt_division {t : IntType} {a b : Int} (ha : t.Represents a) (hb : t.Represents b) :
    (if t.signed then (BitVec.ofInt 64 a).sdiv (BitVec.ofInt 64 b)
      else BitVec.ofInt 64 a / BitVec.ofInt 64 b) = BitVec.ofInt 64 (a.tdiv b) ∧
    (if t.signed then (BitVec.ofInt 64 a).srem (BitVec.ofInt 64 b)
      else BitVec.ofInt 64 a % BitVec.ofInt 64 b) = BitVec.ofInt 64 (a.tmod b) := by
  cases hs : t.signed with
  | true =>
      refine ⟨BitVec.eq_of_toInt_eq ?_, ?_⟩
      · rw [if_pos rfl, BitVec.toInt_sdiv, toInt_ofInt hs ha, toInt_ofInt hs hb,
          BitVec.toInt_ofInt]
      · rw [if_pos rfl, ← BitVec.ofInt_toInt (x := BitVec.srem _ _), BitVec.toInt_srem,
          toInt_ofInt hs ha, toInt_ofInt hs hb]
  | false =>
      have quotient : ((BitVec.ofInt 64 a / BitVec.ofInt 64 b).toNat : Int) = a.tdiv b := by
        rw [BitVec.toNat_udiv, Int.ofNat_tdiv, toNat_ofInt hs ha, toNat_ofInt hs hb]
      have remainder : ((BitVec.ofInt 64 a % BitVec.ofInt 64 b).toNat : Int) = a.tmod b := by
        rw [BitVec.toNat_umod, Int.ofNat_tmod, toNat_ofInt hs ha, toNat_ofInt hs hb]
      rw [← quotient, ← remainder, ofInt_toNat, ofInt_toNat]
      exact ⟨rfl, rfl⟩

/-- Folding computes the reduced result of the operation on numbers. The right operand of a
sum or difference may be of another type. -/
theorem foldInt?_ofInt {op : BinaryOp} {t : IntType} {a b r : Int} (ha : t.Represents a)
    (hb : t.Represents b ∨ op = add ∨ op = sub) (h : op.apply a b = .ok r) :
    op.foldInt? t (BitVec.ofInt 64 a) (BitVec.ofInt 64 b) =
      some (BitVec.ofInt 64 (t.reduce r)) := by
  rw [← wrap_ofInt]
  cases op with
  | add | sub | mul =>
      obtain rfl := Except.ok.inj h
      simp only [foldInt?, Option.map_some, BitVec.ofInt_add, ofInt_sub, BitVec.ofInt_mul]
  | bitAnd | bitOr | bitXor =>
      obtain rfl := Except.ok.inj h
      simp only [foldInt?, Option.map_some, BitVec.ofInt_toInt]
  | shl =>
      obtain rfl := Except.ok.inj h
      simp only [foldInt?, Option.map_some, toNat_emod_ofInt, ofInt_shiftLeft]
  | shr =>
      obtain rfl := Except.ok.inj h
      cases hs : t.signed with
      | true => simp only [foldInt?, hs, if_true, Option.map_some, toNat_emod_ofInt,
          ofInt_sshiftRight hs ha]
      | false => simp only [foldInt?, hs, Bool.false_eq_true, if_false, Option.map_some,
          toNat_emod_ofInt, ofInt_ushiftRight hs ha]
  | div | rem =>
      have hb : t.Represents b := by simpa using hb
      simp only [apply] at h
      split at h
      case isFalse => cases h
      case isTrue hd =>
        obtain rfl := Except.ok.inj h
        have nonzero : BitVec.ofInt 64 b ≠ 0 := fun e => hd.1 ((ofInt_eq_zero hb).mp e)
        simp only [foldInt?, if_neg nonzero, Option.map_some, ofInt_division ha hb]

end BinaryOp
end LiveC
