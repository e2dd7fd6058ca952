import LiveC.Word

/-!
IEEE-754 binary64 values, kept by their bits: two doubles are equal here exactly when
their bits are, and a NaN keeps its sign and payload when it is moved.
-/

namespace LiveC

/-- A binary64 value. -/
structure Double where
  bits : Word
  deriving DecidableEq, Repr, Inhabited

namespace Double

/-- The value as a number to compute with. -/
def toFloat (d : Double) : Float := Float.ofBits (UInt64.ofBitVec d.bits)

def ofFloat (x : Float) : Double := ⟨x.toBits.toBitVec⟩

def zero : Double := ⟨0⟩

/-- The bit pattern of an invalid operation's result: a quiet NaN with its sign set. -/
def invalid : Double := ⟨0xFFF8000000000000⟩

/-- The quiet NaN without a sign. -/
def quietNaN : Double := ⟨0x7FF8000000000000⟩

def infinity : Double := ⟨0x7FF0000000000000⟩

/-- The eleven exponent bits. -/
def exponentBits (d : Double) : Nat := (d.bits.toNat >>> 52) % 0x800

/-- The fifty-two fraction bits. -/
def fractionBits (d : Double) : Nat := d.bits.toNat % 0x10000000000000

def isNegative (d : Double) : Bool := d.bits.msb

def isNaN (d : Double) : Bool := d.exponentBits == 2047 && d.fractionBits != 0

def isInfinite (d : Double) : Bool := d.exponentBits == 2047 && d.fractionBits == 0

def isZero (d : Double) : Bool := d.exponentBits == 0 && d.fractionBits == 0

/-- Flips the sign bit, of a NaN too. -/
def neg (d : Double) : Double := ⟨d.bits ^^^ 0x8000000000000000⟩

/-- Sets the quiet bit of a NaN. -/
def quiet (d : Double) : Double := ⟨d.bits ||| 0x0008000000000000⟩

/-- One rounded operation. A NaN operand passes through, the left one first, and an
operation without a value on numbers gives `invalid`. -/
def arith (f : Float → Float → Float) (a b : Double) : Double :=
  if a.isNaN then a.quiet
  else if b.isNaN then b.quiet
  else
    let r := ofFloat (f a.toFloat b.toFloat)
    if r.isNaN then invalid else r

def add : Double → Double → Double := arith (· + ·)
def sub : Double → Double → Double := arith (· - ·)
def mul : Double → Double → Double := arith (· * ·)
def div : Double → Double → Double := arith (· / ·)

/-- How two doubles stand to each other; `none` when either is a NaN. -/
def compare? (a b : Double) : Option Ordering :=
  if a.isNaN || b.isNaN then none
  else if a.toFloat < b.toFloat then some .lt
  else if a.toFloat == b.toFloat then some .eq
  else some .gt

/-- A finite value is `significand * 2 ^ exponent`, its sign aside. -/
def significand (d : Double) : Nat :=
  if d.exponentBits = 0 then d.fractionBits else 0x10000000000000 + d.fractionBits

def exponent (d : Double) : Int :=
  if d.exponentBits = 0 then -1074 else (d.exponentBits : Int) - 1075

/-- The integer part of a finite value, rounded toward zero. -/
def truncate (d : Double) : Int :=
  let magnitude : Nat :=
    if 0 ≤ d.exponent then d.significand <<< d.exponent.toNat
    else d.significand >>> (-d.exponent).toNat
  if d.isNegative then -(magnitude : Int) else magnitude

/-- Conversion to a signed word that stops at the ends of the range; a NaN gives zero. -/
def toIntSaturating (d : Double) : Word :=
  if d.isNaN then 0
  else if d.isInfinite then
    BitVec.ofInt 64 (if d.isNegative then Word.least else Word.greatest)
  else BitVec.ofInt 64 (max Word.least (min Word.greatest d.truncate))

/-- Conversion to a signed word whose every failure is the least signed word. -/
def toIntOrMin (d : Double) : Word :=
  let fits := Word.least ≤ d.truncate ∧ d.truncate ≤ Word.greatest
  BitVec.ofInt 64 (if !d.isNaN && !d.isInfinite && fits then d.truncate else Word.least)

/-- The double nearest to an unsigned word; of two that are as near, the one with the even
significand. -/
def ofNat (w : Word) : Double := ofFloat (UInt64.ofBitVec w).toFloat

/-- The double nearest to a signed word, of its magnitude and with its sign. -/
def ofInt (w : Word) : Double :=
  let magnitude := (UInt64.ofBitVec (BitVec.ofNat 64 w.toInt.natAbs)).toFloat
  ofFloat (if w.toInt < 0 then -magnitude else magnitude)

end Double

end LiveC
