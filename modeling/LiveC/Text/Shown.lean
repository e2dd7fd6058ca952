/-!
Bytes as a text for a reader: UTF-8 where they are, and a replacement character for each
longest run of bytes that starts a character and does not end it, or that cannot start one.
-/

namespace LiveC.Text

/-- A character of which bytes are missing. -/
structure PartialChar where
  /-- The bits that were read. -/
  value : Nat
  /-- How many more bytes it has behind the next. -/
  more : Nat
  /-- The range of the next byte. -/
  low : Nat := 0x80
  high : Nat := 0xBF

/-- What stands for bytes that are no character. -/
def replacement : Char := Char.ofNat 0xFFFD

/-- The start of a character: what is shown at once, and what is awaited. The ranges leave out
numbers with a shorter form and those that are no characters. -/
def startChar (b : Nat) : List Char × Option PartialChar :=
  if b < 0x80 then ([Char.ofNat b], none)
  else if b < 0xC2 then ([replacement], none)
  else if b < 0xE0 then ([], some { value := b % 32, more := 0 })
  else if b = 0xE0 then ([], some { value := 0, more := 1, low := 0xA0 })
  else if b = 0xED then ([], some { value := 13, more := 1, high := 0x9F })
  else if b < 0xF0 then ([], some { value := b % 16, more := 1 })
  else if b = 0xF0 then ([], some { value := 0, more := 2, low := 0x90 })
  else if b < 0xF4 then ([], some { value := b % 8, more := 2 })
  else if b = 0xF4 then ([], some { value := 4, more := 2, high := 0x8F })
  else ([replacement], none)

/-- The characters in bytes, behind the start of one. -/
def shownChars (started : Option PartialChar) : List UInt8 → List Char
  | [] => started.toList.map fun _ => replacement
  | b :: rest =>
    let b := b.toNat
    match started with
    | some p =>
      if p.low ≤ b ∧ b ≤ p.high then
        let value := p.value * 64 + b % 64
        match p.more with
        | 0 => Char.ofNat value :: shownChars none rest
        | more + 1 => shownChars (some { value, more }) rest
      else
        let (cs, awaited) := startChar b
        replacement :: cs ++ shownChars awaited rest
    | none =>
      let (cs, awaited) := startChar b
      cs ++ shownChars awaited rest

/-- The text in bytes. -/
def shown (bs : List UInt8) : String := String.ofList (shownChars none bs)

end LiveC.Text
