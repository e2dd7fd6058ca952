import LiveC.Decimal.Notation
import LiveC.Host.Run
import LiveC.Text.Bytes
import LiveC.Link.Place

/-!
The functions of the C library that the host offers to compiled code. They take their
arguments from registers and work on the memory of the host. Formatted output is plain bytes and
conversions, and each conversion takes the next argument of its bank.
-/

namespace LiveC

/-! ### Formats -/

/-- A conversion of a format. -/
structure Conversion where
  /-- The number behind a point. -/
  precision : Option Nat := none
  long : Bool := false
  /-- The letter that ends it. -/
  kind : Char := '%'
  deriving DecidableEq, Repr

inductive FormatPiece where
  /-- Characters that stand for themselves, up to the next conversion. -/
  | plain (cs : List Char)
  | conversion (c : Conversion)
  deriving DecidableEq, Repr

/-- Puts a character that stands for itself in front of pieces. -/
def FormatPiece.addPlain (c : Char) : List FormatPiece → List FormatPiece
  | .plain cs :: rest => .plain (c :: cs) :: rest
  | rest => .plain [c] :: rest

/-- The pieces of a format, behind the part of a conversion that was read. -/
def FormatPiece.parse (started : Option Conversion) : List Char → List FormatPiece
  | [] => []
  | c :: rest =>
    match started with
    | none => if c = '%' then parse (some {}) rest else addPlain c (parse none rest)
    | some v =>
      match v.precision with
      | none =>
        if c = '.' then parse (some { v with precision := some 0 }) rest
        else if c = 'l' then parse (some { v with long := true }) rest
        else .conversion { v with kind := c } :: parse none rest
      | some n =>
        if c.isDigit then
          parse (some { v with precision := some (10 * n + (c.toNat - '0'.toNat)) }) rest
        else if c = 'l' then parse (some { v with long := true }) rest
        else .conversion { v with kind := c } :: parse none rest

namespace Conversion

/-- The places of a double for which a format names none. -/
def defaultPlaces : Nat := 6

/-- The signed number that an integer argument is. -/
def signed (c : Conversion) (v : Word) : Int := if c.long then v.toInt else (v.setWidth 32).toInt

/-- The number without sign that an integer argument is. -/
def unsigned (c : Conversion) (v : Word) : Nat := if c.long then v.toNat else (v.setWidth 32).toNat

/-- What stands for the text at the null pointer. -/
def nullText : List UInt8 := Text.utf8 "(null)"

/-- What a conversion writes for an argument in a general register. -/
def renderWord (c : Conversion) (memory : Memory) (v : Word) : List UInt8 :=
  match c.kind with
  | 'd' | 'i' => Text.utf8 (toString (c.signed v))
  | 'u' => Text.utf8 (toString (c.unsigned v))
  | 'x' => Text.utf8 (Text.hex (c.unsigned v))
  | 'c' => [UInt8.ofNat v.toNat]
  | 's' =>
    let text := if v = 0 then nullText else memory.text v
    match c.precision with
    | some n => text.take n
    | none => text
  | _ => []

end Conversion

/-- What each piece writes, with the position of the next argument in each bank. -/
def FormatPiece.render {σ : Type} (h : Host σ) (word double : Nat) :
    List FormatPiece → List (List UInt8)
  | [] => []
  | .plain cs :: rest => cs.map Text.toByte :: render h word double rest
  | .conversion c :: rest =>
    match c.kind with
    | '%' => [Text.toByte '%'] :: render h word double rest
    | 'f' =>
      let places := c.precision.getD Conversion.defaultPlaces
      Text.utf8 ((h.doubleArgument double).renderFixed places) :: render h word (double + 1) rest
    | _ =>
      c.renderWord h.machine.memory (h.wordArgument word) :: render h (word + 1) double rest

/-- What the pieces of a format write for the arguments that a function of the host was called
with, from the second word on. -/
def Host.formatted {σ : Type} (h : Host σ) (format : List UInt8) : List (List UInt8) :=
  FormatPiece.render h 1 0 (FormatPiece.parse none (format.map Text.ofByte))

/-! ### Functions -/

namespace CLibrary

variable {σ : Type}

/-- Writes a text to standard output, piece by piece, and returns its length. -/
def printf (h : Host σ) : Host σ :=
  let pieces := h.formatted (h.machine.memory.text (h.wordArgument 0))
  let length := pieces.foldl (fun n bs => n + bs.length) 0
  (pieces.foldl (fun h bs => h.print bs) h).returnInt (BitVec.ofNat 32 length)

/-- Writes a line: the text, then its end. -/
def puts (h : Host σ) : Host σ :=
  let text := h.machine.memory.text (h.wordArgument 0)
  ((h.print text).print [Text.toByte '\n']).returnInt (BitVec.ofNat 32 (text.length + 1))

/-- Writes a byte. -/
def putchar (h : Host σ) : Host σ :=
  let c := (h.wordArgument 0).setWidth 8
  (h.print [UInt8.ofNat c.toNat]).returnInt (c.setWidth 32)

def strlen (h : Host σ) : Host σ :=
  h.returnWord (BitVec.ofNat 64 (h.machine.memory.text (h.wordArgument 0)).length)

/-- The difference of the first bytes in which texts differ; the end of a text counts as
zero. -/
def difference : List UInt8 → List UInt8 → Int
  | a :: as, b :: bs => if a = b then difference as bs else (a.toNat : Int) - b.toNat
  | a :: _, [] => a.toNat
  | [], b :: _ => -(b.toNat : Int)
  | [], [] => 0

def strcmp (h : Host σ) : Host σ :=
  let memory := h.machine.memory
  h.returnInt (BitVec.ofInt 32
    (difference (memory.text (h.wordArgument 0)) (memory.text (h.wordArgument 1))))

def memcpy (h : Host σ) : Host σ :=
  let target := h.wordArgument 0
  let bytes := h.machine.memory.readBytes (h.wordArgument 1) (h.wordArgument 2).toNat
  (h.modifyMemory (·.writeBytes target bytes)).returnWord target

def memset (h : Host σ) : Host σ :=
  let target := h.wordArgument 0
  let b := UInt8.ofNat (h.wordArgument 1).toNat
  let count := (h.wordArgument 2).toNat
  (h.modifyMemory (·.fill target b count)).returnWord target

/-- Sets memory aside; a request that cannot be met gives the null pointer. -/
def malloc (h : Host σ) : Host σ :=
  match h.allocate? (h.wordArgument 0).toNat with
  | some (address, h) => h.returnWord address
  | none => h.returnWord 0

/-- Memory is never used again, so there is nothing to do. -/
def free (h : Host σ) : Host σ := h.returned

def abs (h : Host σ) : Host σ :=
  let v := (h.wordArgument 0).setWidth 32
  h.returnInt (if v.msb then -v else v)

/-- All functions by name. -/
def table : List (String × HostFunction σ) :=
  [("printf", printf), ("puts", puts), ("putchar", putchar), ("strlen", strlen),
   ("strcmp", strcmp), ("memcpy", memcpy), ("memset", memset), ("malloc", malloc),
   ("free", free), ("abs", abs)]

/-- The address of the function at a position of the table. -/
def address (i : Nat) : Word := BitVec.ofNat 64 (0x500000001000 + 16 * i)

/-- The functions at their addresses. -/
def functions : HostFunctions σ := table.zipIdx.map fun ((_, f), i) => (address i, f)

/-- The symbols of all functions. -/
def symbols : List (String × HostSymbol) :=
  (table (σ := Unit)).zipIdx.map fun ((name, _), i) =>
    (name, { kind := .function, address := address i })

/-- The entries of all functions. -/
def places : List Place := symbols.map fun (name, s) => ⟨name, s.address, 0⟩

end CLibrary

end LiveC
