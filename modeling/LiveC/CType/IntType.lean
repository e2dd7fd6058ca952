import LiveC.Word

/-!
Integer types: a width and a signedness. A value of an integer type is kept as a machine
word in its canonical form, which `IntType.wrap` computes.
-/

namespace LiveC

/-- The width of an integer or of a memory access. -/
inductive Width where
  | w8 | w16 | w32 | w64
  deriving DecidableEq, Repr

namespace Width

def bytes : Width → Nat
  | w8 => 1
  | w16 => 2
  | w32 => 4
  | w64 => 8

def bits (w : Width) : Nat := 8 * w.bytes

/-- The width of a number of bytes. -/
def ofBytes? : Nat → Option Width
  | 1 => some w8
  | 2 => some w16
  | 4 => some w32
  | 8 => some w64
  | _ => none

end Width

/-- An integer type. -/
structure IntType where
  width : Width
  signed : Bool
  deriving DecidableEq, Repr

namespace IntType

def char : IntType := ⟨.w8, true⟩
def uchar : IntType := ⟨.w8, false⟩
def int : IntType := ⟨.w32, true⟩
def uint : IntType := ⟨.w32, false⟩
def long : IntType := ⟨.w64, true⟩
def ulong : IntType := ⟨.w64, false⟩

def size (t : IntType) : Nat := t.width.bytes

/-- The canonical form of the low bits of a word: sign- or zero-extended from the width. -/
def wrap (t : IntType) (v : Word) : Word :=
  if t.signed then (v.setWidth t.width.bits).signExtend 64
  else (v.setWidth t.width.bits).setWidth 64

/-- The largest value of the type. -/
def maxValue (t : IntType) : Nat :=
  (if t.signed then 1 <<< (t.width.bits - 1) else 1 <<< t.width.bits) - 1

/-- Whether the type can represent a non-negative number. -/
def fits (t : IntType) (v : Nat) : Bool := v ≤ t.maxValue

/-- The number that a canonical word stands for. -/
def value (t : IntType) (v : Word) : Int := if t.signed then v.toInt else v.toNat

end IntType

end LiveC
