/-!
Bytes as characters: a byte stands for the character of the same number, so that a
scan that counts bytes can be written with character literals. Also the escaped form in
which a message shows such a character, and white space with the trimming by it. The bytes of two
texts that follow each other do so too, and a text in ASCII has a byte for each character.
-/

namespace LiveC.Text

/-- The character with the number of the byte. -/
def ofByte (b : UInt8) : Char := Char.ofNat b.toNat

/-- The byte with the number of a character below 256. -/
def toByte (c : Char) : UInt8 := UInt8.ofNat c.toNat

/-- The bytes of a text in UTF-8. -/
def utf8 (s : String) : List UInt8 := s.toUTF8.toList

/-- The UTF-8 form of a text, a character per byte. -/
def toByteChars (s : String) : List Char := (utf8 s).map ofByte

/-- The text whose UTF-8 form is given by a character per byte. What is no UTF-8 is
read byte by byte. -/
def ofByteChars (cs : List Char) : String :=
  (String.fromUTF8? ⟨(cs.map toByte).toArray⟩).getD (String.ofList cs)

/-- The number of bytes that characters take in UTF-8. -/
def utf8Length : List Char → Nat
  | [] => 0
  | c :: cs => c.utf8Size + utf8Length cs

/-- Lower-case hexadecimal without padding. -/
def hex (n : Nat) : String := String.ofList (Nat.toDigits 16 n)

/-- Two lower-case hexadecimal digits for each byte. -/
def hexOfBytes (bs : List UInt8) : String :=
  String.ofList (bs.flatMap fun b =>
    [Nat.digitChar (b.toNat / 16), Nat.digitChar (b.toNat % 16)])

/-- A byte character as a message shows it: printable ASCII stands for itself, quotes,
the backslash, tab, line feed and carriage return take a backslash, all else its number. -/
def escape (c : Char) : String :=
  match c with
  | '\t' => "\\t"
  | '\r' => "\\r"
  | '\n' => "\\n"
  | '\'' => "\\'"
  | '"' => "\\\""
  | '\\' => "\\\\"
  | c =>
    if ' ' ≤ c && c ≤ '~' then String.singleton c
    else "\\u\x7b" ++ hex c.toNat ++ "\x7d"

/-- A character that may stand in an identifier: an ASCII letter or digit, or `_`. -/
def isWordChar (c : Char) : Bool := c.isAlphanum || c == '_'

/-- A character that an identifier may start with. -/
def isWordStart (c : Char) : Bool := c.isAlpha || c == '_'

/-! ### White space -/

/-- Closed ranges of the code points of Unicode's White_Space property (stable since version 6.3),
ascending and apart. -/
def blankRanges : List (Nat × Nat) :=
  [(0x09, 0x0D), (0x20, 0x20), (0x85, 0x85), (0xA0, 0xA0), (0x1680, 0x1680),
   (0x2000, 0x200A), (0x2028, 0x2029), (0x202F, 0x202F), (0x205F, 0x205F), (0x3000, 0x3000)]

def isBlank (c : Char) : Bool :=
  blankRanges.any fun r => r.1 ≤ c.toNat && c.toNat ≤ r.2

/-- Drops the blanks in front. -/
def trimStart (cs : List Char) : List Char := cs.dropWhile isBlank

/-- Drops the blanks at both ends. -/
def trim (cs : List Char) : List Char :=
  ((trimStart cs).reverse.dropWhile isBlank).reverse

example : isBlank '\x0c' = true ∧ isBlank '\u200b' = false := by decide

/-! ### The bytes of a text -/

/-- The loop that lists bytes adds those from its place on to what it has. -/
theorem toList_loop_eq (bytes : ByteArray) (i : Nat) (acc : List UInt8) :
    ByteArray.toList.loop bytes i acc = acc.reverse ++ bytes.data.toList.drop i := by
  fun_induction ByteArray.toList.loop bytes i acc with
  | case1 i acc inside ih =>
      have inside' : i < bytes.data.toList.length := inside
      have byte : bytes.get! i = bytes.data.toList[i] := getElem!_pos bytes.data i inside
      rw [ih, List.drop_eq_getElem_cons inside', byte, List.reverse_cons, List.append_assoc]
      rfl
  | case2 i acc outside =>
      rw [List.drop_eq_nil_of_le (Nat.le_of_not_lt outside), List.append_nil]

theorem toList_eq_data (bytes : ByteArray) : bytes.toList = bytes.data.toList :=
  toList_loop_eq bytes 0 []

theorem utf8_append (s t : String) : utf8 (s ++ t) = utf8 s ++ utf8 t := by
  simp only [utf8, String.toUTF8, toList_eq_data, String.toByteArray_append,
    ByteArray.toList_data_append]

theorem toByteChars_append (s t : String) :
    toByteChars (s ++ t) = toByteChars s ++ toByteChars t := by
  rw [toByteChars, utf8_append, List.map_append]
  rfl

theorem toByteChars_empty : toByteChars "" = [] := by
  rw [toByteChars, utf8, toList_eq_data]
  rfl

theorem toByteChars_newline : toByteChars "\n" = ['\n'] := by
  rw [toByteChars, utf8, toList_eq_data]
  rfl

theorem toByteChars_append_of {s t : String} {cs ds : List Char} (bytes : toByteChars s = cs)
    (others : toByteChars t = ds) : toByteChars (s ++ t) = cs ++ ds := by
  rw [toByteChars_append, bytes, others]

theorem ofByte_toByte {c : Char} (ascii : c.toNat < 128) : ofByte (toByte c) = c := by
  rw [ofByte, toByte, UInt8.toNat_ofNat_of_lt' (Nat.lt_trans ascii (by decide)), Char.ofNat_toNat]

theorem utf8EncodeChar_ascii {c : Char} (ascii : c.toNat < 128) :
    String.utf8EncodeChar c = [toByte c] := by
  have small : c.val ≤ 0x7f := UInt32.le_iff_toNat_le.mpr (Nat.le_of_lt_succ ascii)
  have size : c.utf8Size = 1 := if_pos small
  rw [String.utf8EncodeChar_eq_singleton size]
  rfl

/-- A text in ASCII has a byte for each character. -/
theorem toByteChars_ofList {cs : List Char} (ascii : ∀ c ∈ cs, c.toNat < 128) :
    toByteChars (String.ofList cs) = cs := by
  rw [toByteChars, utf8, String.toUTF8, toList_eq_data, String.toByteArray_ofList, List.utf8Encode,
    List.data_toByteArray, List.toList_toArray]
  induction cs with
  | nil => rfl
  | cons c cs ih =>
      obtain ⟨first, others⟩ := List.forall_mem_cons.mp ascii
      rw [List.flatMap_cons, utf8EncodeChar_ascii first, List.singleton_append, List.map_cons,
        ofByte_toByte first, ih others]

/-- A literal in ASCII, whose characters are gone through one by one. -/
theorem toByteChars_of_all {cs : List Char} (ascii : cs.all (·.toNat < 128)) :
    toByteChars (String.ofList cs) = cs :=
  toByteChars_ofList fun c member => of_decide_eq_true (List.all_eq_true.mp ascii c member)

end LiveC.Text
