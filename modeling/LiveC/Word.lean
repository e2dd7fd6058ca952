/-!
Numbers as bytes, least significant first, and readers that take what they read off the
front of bytes. Machine words: integer values of every width are kept as 64-bit words, narrow ones
sign- or zero-extended, so one type serves literals, registers and addresses.
-/

/-! ### Numbers as bytes -/

namespace LiveC.Binary

/-- The `n` low bytes of a number. -/
def little : Nat → Nat → List UInt8
  | 0, _ => []
  | n + 1, v => UInt8.ofNat v :: little n (v / 256)

/-- The number that bytes denote. -/
def ofLittle : List UInt8 → Nat
  | [] => 0
  | b :: bs => b.toNat + 256 * ofLittle bs

@[simp] theorem length_little (n v : Nat) : (little n v).length = n := by
  induction n generalizing v with
  | zero => rfl
  | succ n ih => simp [little, ih]

theorem ofLittle_little (n v : Nat) : ofLittle (little n v) = v % Nat.pow 256 n := by
  induction n generalizing v with
  | zero => simp [little, ofLittle, Nat.mod_one]
  | succ n ih =>
    have split : v % Nat.pow 256 (n + 1) = v % 256 + 256 * (v / 256 % Nat.pow 256 n) := by
      rw [show Nat.pow 256 (n + 1) = 256 * Nat.pow 256 n from Nat.mul_comm _ _, Nat.mod_mul]
    rw [little, ofLittle, ih, split]
    simp

theorem little_ofLittle (bs : List UInt8) : little bs.length (ofLittle bs) = bs := by
  induction bs with
  | nil => rfl
  | cons b bs ih =>
    have h : b.toNat < 256 := b.toNat_lt
    rw [List.length_cons, little, ofLittle]
    have hq : (b.toNat + 256 * ofLittle bs) / 256 = ofLittle bs := by omega
    rw [hq, ih]
    congr 1
    apply UInt8.toNat_inj.1
    simp

/-- Writes bytes into others, from an offset on. -/
def writeAt (a : Array UInt8) (offset : Nat) : List UInt8 → Array UInt8
  | [] => a
  | b :: bs => writeAt (a.setIfInBounds offset b) (offset + 1) bs

/-- Bytes with others written over them from an offset on. Zeros fill a gap in front of it. -/
def overwrite (bs : List UInt8) (offset : Nat) (new : List UInt8) : List UInt8 :=
  bs.take offset ++ List.replicate (offset - bs.length) 0 ++ new ++ bs.drop (offset + new.length)

/-- Takes what it reads off the front of the bytes. -/
abbrev Reader := StateT (List UInt8) Option

def byte : Reader UInt8
  | [] => none
  | b :: rest => some (b, rest)

/-- Takes `n` bytes. -/
def take (n : Nat) : Reader (List UInt8) := fun bs =>
  if (bs.take n).length = n then some (bs.take n, bs.drop n) else none

/-- A number of `n` bytes. -/
def number (n : Nat) : Reader Nat := return ofLittle (← take n)

end LiveC.Binary

/-! ### Words -/

namespace LiveC

/-- A 64-bit machine word. -/
abbrev Word := BitVec 64

namespace Word

/-- How many words there are. -/
def modulus : Nat := 0x10000000000000000

/-- The least signed word. -/
def least : Int := -0x8000000000000000

/-- The greatest signed word. -/
def greatest : Int := 0x7FFFFFFFFFFFFFFF

/-- The low `n` bytes of a word, least significant first. -/
def toBytes (w : Word) (n : Nat) : List UInt8 := Binary.little n w.toNat

/-- The zero-extended word that at most eight bytes denote. -/
def ofBytes (bs : List UInt8) : Word := BitVec.ofNat 64 (Binary.ofLittle bs)

end Word

end LiveC
