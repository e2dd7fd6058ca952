import Mathlib.Data.Nat.Digits.Defs
import Mathlib.Data.List.Infix
import LiveC.Proofs.LineScanning

/-!
How tokens are spelled, and that scanning undoes it. Wherever a spelling is followed by a blank or
by nothing, the scanner stops behind it with the token that was spelled. A punctuator that the
scanner reads is the longest one that stands there.
-/

namespace LiveC

/-- What is decided by looking at each character of a text. -/
theorem forall_mem_of_all {p : Char → Prop} [DecidablePred p] {cs : List Char}
    (h : cs.all (fun c => decide (p c)) = true) : ∀ c ∈ cs, p c :=
  fun c member => of_decide_eq_true (List.all_eq_true.mp h c member)

/-- White space that may stand between tokens. -/
def IsBlank (c : Char) : Prop := Cursor.isSpace c = true ∨ c = '\n'

instance (c : Char) : Decidable (IsBlank c) := inferInstanceAs (Decidable (_ ∨ _))

/-- A token ends in front of this text. -/
def EndsToken (tail : List Char) : Prop := ∀ c ∈ tail.head?, IsBlank c

theorem IsBlank.cases {c : Char} (h : IsBlank c) :
    c = ' ' ∨ c = '\t' ∨ c = '\r' ∨ c = '\x0c' ∨ c = '\x0b' ∨ c = '\n' := by
  simpa [IsBlank, Cursor.isSpace, or_assoc] using h

/-- What no blank is does not stand at the start of a text behind a token. -/
theorem EndsToken.not_head {tail : List Char} (h : EndsToken tail) {p : Char → Bool}
    (none : ∀ c, IsBlank c → p c = false) : tail.head?.any p = false := by
  cases tail with
  | nil => rfl
  | cons c tail => exact none c (h c rfl)

theorem isWordStart_of_isDigit {c : Char} (digit : c.isDigit = true) :
    Text.isWordStart c = false := by
  unfold Text.isWordStart
  delta Char.isAlpha Char.isUpper Char.isLower Char.isDigit at *
  simp only [Bool.and_eq_true, decide_eq_true_eq, UInt32.le_iff_toNat_le, ge_iff_le, Bool.or_eq_false_iff,
    Bool.and_eq_false_iff, decide_eq_false_iff_not, beq_eq_false_iff_ne] at digit ⊢
  have low : 48 ≤ c.val.toNat ∧ c.val.toNat ≤ 57 := digit
  refine ⟨⟨fun upper => ?_, .inl fun lower => ?_⟩, ?_⟩
  · have : 65 ≤ c.val.toNat := upper.1
    omega
  · have : 97 ≤ c.val.toNat := lower
    omega
  · rintro rfl
    exact absurd low (by decide)

/-! ### Punctuators -/

namespace Punct

theorem mem_all (p : Punct) : p ∈ Punct.all := by cases p <;> decide

/-- A punctuator that stands alone is read as what it is. -/
theorem ofStart?_alone (p : Punct) : ofStart? p.spelling.toList = some (p, []) := by
  have all : ∀ p ∈ Punct.all, ofStart? p.spelling.toList = some (p, []) := by decide +kernel
  exact all p p.mem_all

theorem spelling_inj {p q : Punct} (h : p.spelling = q.spelling) : p = q := by
  have same := ofStart?_alone p
  rw [h, ofStart?_alone] at same
  exact (Prod.mk.inj (Option.some.inj same)).1.symm

/-- A character of punctuators. -/
def IsSign (c : Char) : Prop := ∃ p : Punct, c ∈ p.spelling.toList

theorem isSign_of_mem {p : Punct} {c : Char} (h : c ∈ p.spelling.toList) : IsSign c := ⟨p, h⟩

namespace IsSign

variable {c : Char} (h : IsSign c)
include h

theorem notBlank : ¬IsBlank c := by
  have all (p : Punct) : ∀ c ∈ p.spelling.toList, ¬IsBlank c := by
    cases p <;> exact forall_mem_of_all (by decide)
  exact h.elim fun p member => all p c member

theorem notDigit : c.isDigit = false := by
  have all (p : Punct) : ∀ c ∈ p.spelling.toList, c.isDigit = false := by
    cases p <;> exact forall_mem_of_all (by decide)
  exact h.elim fun p member => all p c member

theorem startsNothing : Text.isWordStart c = false ∧ (c == '\'') = false ∧ (c == '"') = false ∧
    c ≠ '\\' := by
  have all (p : Punct) : ∀ c ∈ p.spelling.toList, Text.isWordStart c = false ∧
      (c == '\'') = false ∧ (c == '"') = false ∧ c ≠ '\\' := by
    cases p <;> exact forall_mem_of_all (by decide)
  exact h.elim fun p member => all p c member

/-- Each is a punctuator itself. -/
theorem exists_spelling : ∃ p : Punct, p.spelling.toList = [c] := by
  have all : ∀ p ∈ Punct.all, p.spelling.toList.all fun c => (ofStart? [c]).any (·.2.isEmpty) := by
    decide +kernel
  obtain ⟨p, member⟩ := h
  obtain ⟨⟨q, rest⟩, read, alone⟩ :=
    (Option.any_eq_true ..).mp (List.all_eq_true.mp (all p p.mem_all) c member)
  obtain rfl := List.isEmpty_iff.mp alone
  exact ⟨q, (Cursor.spelling_of_ofStart? read ▸ List.append_nil _).symm⟩

end IsSign

/-- No punctuator that a text starts with is longer. -/
def IsLongest (p : Punct) (cs : List Char) : Prop :=
  ∀ q : Punct, q.spelling.toList <+: cs → q.spelling.length ≤ p.spelling.length

theorem exists_ofStart? {cs rest : List Char} {p : Punct} (starts : cs = p.spelling.toList ++ rest) :
    ∃ r, ofStart? cs = some r := by
  rw [← Option.isSome_iff_exists, ofStart?, List.isSome_findSome?, List.any_eq_true]
  exact ⟨p, mem_all p, by rw [behind?_eq_some_iff.mpr starts]; rfl⟩

/-- The table has longer punctuators first, so the first one that fits is the longest. -/
theorem ofStart?_eq_some_iff {cs rest : List Char} {p : Punct} :
    ofStart? cs = some (p, rest) ↔ cs = p.spelling.toList ++ rest ∧ p.IsLongest cs := by
  have found {p : Punct} {rest : List Char} (h : ofStart? cs = some (p, rest)) :
      cs = p.spelling.toList ++ rest ∧ p.IsLongest cs := by
    refine ⟨Cursor.spelling_of_ofStart? h, fun q starts => ?_⟩
    obtain ⟨before, r, after, table, read, none⟩ := List.findSome?_eq_some_iff.mp h
    obtain ⟨_, -, same⟩ := Option.map_eq_some_iff.mp read
    obtain rfl : r = p := (Prod.mk.inj same).1
    have descending : all.Pairwise fun p q => q.spelling.length ≤ p.spelling.length := by decide
    have member := mem_all q
    rw [table] at member descending
    rcases List.mem_append.mp member with early | late
    · obtain ⟨others, same⟩ := starts
      have absent := none q early
      rw [Option.map_eq_none_iff] at absent
      rw [behind?_eq_some_iff.mpr same.symm] at absent
      cases absent
    · rcases List.mem_cons.mp late with rfl | late
      · exact Nat.le_refl _
      · exact (List.pairwise_cons.mp (List.pairwise_append.mp descending).2.1).1 q late
  refine ⟨found, fun ⟨starts, longest⟩ => ?_⟩
  obtain ⟨⟨q, others⟩, read⟩ := exists_ofStart? starts
  obtain ⟨starts', longest'⟩ := found read
  have length : q.spelling.toList.length = p.spelling.toList.length := by
    have one := longest q ⟨others, starts'.symm⟩
    have other := longest' p ⟨rest, starts.symm⟩
    rw [String.length_toList, String.length_toList]
    omega
  obtain ⟨same, rfl⟩ := List.append_inj (starts'.symm.trans starts) length
  rw [read, spelling_inj (String.toList_inj.mp same)]

/-- No punctuator goes on with a blank, so one that a blank follows is the longest. -/
theorem isLongest_of_endsToken (p : Punct) {tail : List Char} (ends : EndsToken tail) :
    p.IsLongest (p.spelling.toList ++ tail) := by
  rintro q ⟨others, same⟩
  by_contra longer
  have length : p.spelling.toList.length < q.spelling.toList.length := by
    rwa [String.length_toList, String.length_toList, ← Nat.not_le]
  have next : q.spelling.toList[p.spelling.toList.length]? = tail.head? := by
    rw [← List.getElem?_append_left length, same, List.getElem?_append_right (Nat.le_refl _),
      Nat.sub_self, List.head?_eq_getElem?]
  rw [List.getElem?_eq_getElem length] at next
  exact (isSign_of_mem (List.getElem_mem length)).notBlank (ends _ next.symm)

theorem ofStart?_spelling (p : Punct) {tail : List Char} (ends : EndsToken tail) :
    ofStart? (p.spelling.toList ++ tail) = some (p, tail) :=
  ofStart?_eq_some_iff.2 ⟨rfl, p.isLongest_of_endsToken ends⟩

end Punct

/-! ### Integer constants -/

/-- How the base of an integer constant is marked. -/
inductive Base where
  | decimal
  | octal
  | hexadecimal (capital : Bool)
  deriving DecidableEq, Repr

namespace Base

def radix : Base → Nat
  | decimal => 10
  | octal => 8
  | hexadecimal _ => 16

theorem radix_pos (base : Base) : 0 < base.radix := by cases base <;> exact Nat.succ_pos _

/-- The number of digits that are written. An octal constant may be written with digits that it
must not have. -/
def written : Base → Nat
  | decimal | octal => 10
  | hexadecimal _ => 16

def mark : Base → List Char
  | decimal => []
  | octal => ['0']
  | hexadecimal false => ['0', 'x']
  | hexadecimal true => ['0', 'X']

end Base

/-- A digit of an integer constant. -/
structure Digit where
  value : Fin 16
  /-- Whether it is written as a capital letter, if as a letter. -/
  capital : Bool
  deriving DecidableEq, Repr

namespace Digit

def char (d : Digit) : Char :=
  if d.capital then (Nat.digitChar d.value).toUpper else Nat.digitChar d.value

theorem digit?_char (d : Digit) (base : Base) :
    Cursor.digit? base.radix d.char =
      if d.value < base.radix then some d.value.val else none := by
  have all : ∀ radix ∈ [8, 10, 16], ∀ value capital,
      Cursor.digit? radix (char ⟨value, capital⟩) =
        if value.val < radix then some value.val else none := by decide +kernel
  exact all _ (by cases base <;> simp [Base.radix]) d.value d.capital

theorem isWordChar_char (d : Digit) : Text.isWordChar d.char = true := by
  have all : ∀ value capital, Text.isWordChar (char ⟨value, capital⟩) = true := by decide
  exact all d.value d.capital

theorem isSuffixStart_char (d : Digit) : Cursor.isSuffixStart d.char = false := by
  have all : ∀ value capital, Cursor.isSuffixStart (char ⟨value, capital⟩) = false := by decide
  exact all d.value d.capital

theorem isDigit_char {d : Digit} (low : d.value < 10) : d.char.isDigit = true := by
  have all : ∀ value : Fin 16, ∀ capital, value < 10 → (char ⟨value, capital⟩).isDigit = true := by
    decide
  exact all d.value d.capital low

theorem char_eq_zero {d : Digit} (zero : d.char = '0') : d.value = 0 := by
  have all : ∀ value capital, char ⟨value, capital⟩ = '0' → value = 0 := by decide
  exact all d.value d.capital zero

end Digit

/-- The suffix of an integer constant. -/
structure IntegerSuffix where
  /-- The letter for unsigned, if there is one: whether it is a capital. -/
  unsigned : Option Bool
  /-- The letters for long, if there are any: whether they are capitals, and whether two. -/
  long : Option (Bool × Bool)
  longFirst : Bool
  deriving DecidableEq, Repr

namespace IntegerSuffix

def spelling (s : IntegerSuffix) : List Char :=
  let unsigned := match s.unsigned with
    | none => []
    | some capital => [if capital then 'U' else 'u']
  let long := match s.long with
    | none => []
    | some (capital, twice) => List.replicate (if twice then 2 else 1) (if capital then 'L' else 'l')
  if s.longFirst then long ++ unsigned else unsigned ++ long

/-- What is proved of all suffixes by looking at each. -/
theorem forall_of_decide {p : IntegerSuffix → Prop} [DecidablePred p]
    (h : ∀ unsigned ∈ [none, some false, some true],
      ∀ long ∈ [none, some (false, false), some (false, true), some (true, false),
        some (true, true)], ∀ longFirst, p ⟨unsigned, long, longFirst⟩) (s : IntegerSuffix) : p s :=
  h s.unsigned (by rcases s.unsigned with _ | _ | _ <;> decide) s.long
    (by rcases s.long with _ | ⟨_ | _, _ | _⟩ <;> decide) s.longFirst

theorem suffixFlags?_spelling (s : IntegerSuffix) :
    Cursor.suffixFlags? (s.spelling.map Char.toLower) =
      some (s.unsigned.isSome, s.long.isSome) := by
  revert s
  exact forall_of_decide (by decide)

theorem isWordChar_of_mem (s : IntegerSuffix) :
    ∀ c ∈ s.spelling, Text.isWordChar c = true := by
  have all : ∀ s : IntegerSuffix, s.spelling.all Text.isWordChar = true :=
    forall_of_decide (by decide)
  exact List.all_eq_true.mp (all s)

theorem isSuffixStart_of_mem (s : IntegerSuffix) :
    ∀ c ∈ s.spelling, Cursor.isSuffixStart c = true := by
  have all : ∀ s : IntegerSuffix, s.spelling.all Cursor.isSuffixStart = true :=
    forall_of_decide (by decide)
  exact List.all_eq_true.mp (all s)

end IntegerSuffix

/-- An integer constant as it is written. -/
structure Numeral where
  base : Base
  first : Digit
  others : List Digit
  suffix : IntegerSuffix
  deriving DecidableEq, Repr

namespace Numeral

def digits (n : Numeral) : List Digit := n.first :: n.others

def spelling (n : Numeral) : List Char :=
  n.base.mark ++ n.digits.map Digit.char ++ n.suffix.spelling

def value (n : Numeral) : Nat := Nat.ofDigits n.base.radix (n.digits.reverse.map (·.value.val))

/-- A digit stands in it that its base does not have. -/
def HasWrongDigit (n : Numeral) : Prop := ∃ d ∈ n.digits, n.base.radix ≤ d.value

instance (n : Numeral) : Decidable n.HasWrongDigit := inferInstanceAs (Decidable (∃ d ∈ _, _))

/-- The token that it is, if it is one. -/
def kind? (n : Numeral) : Option TokenKind :=
  if n.HasWrongDigit ∨ 2 ^ 64 ≤ n.value then none
  else some (.int n.value n.suffix.unsigned.isSome n.suffix.long.isSome (n.base == .decimal))

/-- Why it is none. -/
def Refused (n : Numeral) (e : LexError) : Prop :=
  n.HasWrongDigit ∧ e = .invalidInteger (String.ofList n.spelling) ∨
    2 ^ 64 ≤ n.value ∧ e = .integerTooLarge (String.ofList n.spelling)

/-- Its digits are such as its base is written with, and no octal mark stands in front of a decimal
constant. -/
structure WellFormed (n : Numeral) : Prop where
  digits : ∀ d ∈ n.digits, d.value < n.base.written
  noMark : n.base = .decimal → n.first.value = 0 → n.others = []

instance (n : Numeral) : Decidable n.WellFormed :=
  decidable_of_iff ((∀ d ∈ n.digits, d.value < n.base.written) ∧
      (n.base = .decimal → n.first.value.val = 0 → n.others = []))
    ⟨fun h => ⟨h.1, fun decimal zero => h.2 decimal (congrArg Fin.val zero)⟩,
      fun h => ⟨h.digits, fun decimal zero => h.noMark decimal (Fin.ext zero)⟩⟩

theorem kind?_eq_none_iff (n : Numeral) :
    n.kind? = none ↔ n.HasWrongDigit ∨ 2 ^ 64 ≤ n.value := by
  unfold kind?
  split <;> simp_all

theorem spelling_ne_nil (n : Numeral) : n.spelling ≠ [] := by
  simp [spelling, digits]

theorem isWordChar_of_mem {n : Numeral} : ∀ c ∈ n.spelling, Text.isWordChar c = true := by
  intro c member
  rw [spelling, List.append_assoc, List.mem_append, List.mem_append, List.mem_map] at member
  rcases member with mark | ⟨d, -, rfl⟩ | suffix
  · have all : ∀ base : Base, ∀ c ∈ base.mark, Text.isWordChar c = true := by
      rintro (_ | _ | _ | _) <;> exact forall_mem_of_all (by decide)
    exact all n.base c mark
  · exact d.isWordChar_char
  · exact n.suffix.isWordChar_of_mem c suffix

/-- The scanner of integers finds the suffix. -/
theorem takeWhile_spelling (n : Numeral) :
    n.spelling.takeWhile (!Cursor.isSuffixStart ·) = n.base.mark ++ n.digits.map Digit.char ∧
      n.spelling.dropWhile (!Cursor.isSuffixStart ·) = n.suffix.spelling := by
  have mark : ∀ base : Base, ∀ c ∈ base.mark, (!Cursor.isSuffixStart c) = true := by
    rintro (_ | _ | _ | _) <;> exact forall_mem_of_all (by decide)
  have front : ∀ c ∈ n.base.mark ++ n.digits.map Digit.char, (!Cursor.isSuffixStart c) = true := by
    intro c member
    rw [List.mem_append, List.mem_map] at member
    rcases member with member | ⟨d, -, rfl⟩
    · exact mark n.base c member
    · rw [d.isSuffixStart_char]
      rfl
  have stops : n.suffix.spelling.head?.any (!Cursor.isSuffixStart ·) = false := by
    cases suffix : n.suffix.spelling with
    | nil => rfl
    | cons c cs =>
        have starts := n.suffix.isSuffixStart_of_mem c (suffix ▸ List.mem_cons_self)
        simp [starts]
  rw [spelling, List.takeWhile_append_of_pos front, List.dropWhile_append_of_pos front]
  cases suffix : n.suffix.spelling with
  | nil => simp
  | cons c cs =>
      rw [suffix] at stops
      have stops : (!Cursor.isSuffixStart c) = false := by simpa using stops
      rw [List.takeWhile_cons_of_neg (by simp [stops]), List.dropWhile_cons_of_neg (by simp [stops]),
        List.append_nil]
      exact ⟨rfl, rfl⟩

/-! The scanner reads digits on top of those in front of them. -/

/-- What reading the digits `ds` gives behind the digits `front`, which stand in reverse. -/
def Reading (radix : Nat) (text : String) (front ds : List Nat) : Except LexError Nat → Prop
  | .ok v => (∀ d ∈ ds, d < radix) ∧ v = Nat.ofDigits radix (ds.reverse ++ front) ∧ v < 2 ^ 64
  | .error e =>
    (∃ d ∈ ds, radix ≤ d) ∧ e = .invalidInteger text ∨
      2 ^ 64 ≤ Nat.ofDigits radix (ds.reverse ++ front) ∧ e = .integerTooLarge text

theorem le_ofDigits_append (radix : Nat) (positive : 0 < radix) (ds front : List Nat) :
    Nat.ofDigits radix front ≤ Nat.ofDigits radix (ds ++ front) := by
  rw [Nat.ofDigits_append]
  exact Nat.le_add_left_of_le (Nat.le_mul_of_pos_left _ (Nat.pow_pos positive))

theorem reading_digitsValue (base : Base) (text : String) (front : List Nat) (ds : List Digit)
    (low : Nat.ofDigits base.radix front < 2 ^ 64) :
    Reading base.radix text front (ds.map (·.value.val))
      (Cursor.digitsValue base.radix text (Nat.ofDigits base.radix front) (ds.map Digit.char)) := by
  induction ds generalizing front with
  | nil => exact ⟨List.forall_mem_nil _, rfl, low⟩
  | cons d ds ih =>
      have step : Nat.ofDigits base.radix front * base.radix + d.value =
          Nat.ofDigits base.radix (d.value.val :: front) := by
        rw [Nat.ofDigits_cons, Nat.mul_comm, Nat.add_comm]
      have all : (d :: ds).map (·.value.val) = d.value.val :: ds.map (·.value.val) := rfl
      have split : ((d :: ds).map (·.value.val)).reverse ++ front =
          (ds.map (·.value.val)).reverse ++ (d.value.val :: front) := by simp
      rw [List.map_cons (f := Digit.char), Cursor.digitsValue, d.digit?_char base]
      by_cases right : d.value < base.radix
      · rw [if_pos right]
        dsimp only
        rw [step]
        split
        case isTrue small =>
          have reads := ih (d.value.val :: front) small
          generalize Cursor.digitsValue base.radix text _ _ = r at reads ⊢
          cases r with
          | ok v =>
              obtain ⟨digits, value, low⟩ := reads
              exact ⟨all ▸ List.forall_mem_cons.mpr ⟨right, digits⟩, split ▸ value, low⟩
          | error e =>
              rcases reads with ⟨⟨d', member, wrong⟩, cause⟩ | ⟨large, cause⟩
              · exact .inl ⟨⟨d', all ▸ List.mem_cons_of_mem _ member, wrong⟩, cause⟩
              · exact .inr ⟨split ▸ large, cause⟩
        case isFalse large =>
          refine .inr ⟨?_, rfl⟩
          rw [split]
          exact Nat.le_trans (Nat.le_of_not_lt large)
            (le_ofDigits_append _ base.radix_pos _ _)
      · rw [if_neg right]
        exact .inl ⟨⟨d.value, all ▸ List.mem_cons_self, Nat.le_of_not_lt right⟩, rfl⟩

variable {n : Numeral}

/-- How the scanner of integers tells a mark and the base from the digits behind it. -/
inductive Splits : List Char → List Char → Nat → Prop
  | hexadecimal {body : List Char} (hex : Cursor.isHex body = true) : Splits body (body.drop 2) 16
  | octal {c : Char} {cs : List Char} (notHex : Cursor.isHex ('0' :: c :: cs) = false) :
      Splits ('0' :: c :: cs) (c :: cs) 8
  | decimal {body : List Char} (notHex : Cursor.isHex body = false)
      (notOctal : ∀ c cs, body ≠ '0' :: c :: cs) : Splits body body 10

omit n in
theorem integer_of_splits {cs digits : List Char} {radix : Nat} {unsigned long : Bool}
    (splits : Splits (cs.takeWhile (!Cursor.isSuffixStart ·)) digits radix)
    (suffix : Cursor.suffixFlags? ((cs.dropWhile (!Cursor.isSuffixStart ·)).map Char.toLower) =
      some (unsigned, long)) (some : digits ≠ []) :
    Cursor.integer cs = (Cursor.digitsValue radix (String.ofList cs) 0 digits).map fun value =>
      .int value unsigned long (radix == 10) := by
  unfold Cursor.integer
  dsimp only
  rw [suffix]
  generalize cs.takeWhile _ = body at splits ⊢
  cases splits with
  | hexadecimal hex => simp [hex, some]
  | octal notHex => simp [notHex]
  | decimal notHex notOctal =>
      simp only [notHex]
      split <;> simp_all

theorem splits_body (h : n.WellFormed) :
    Splits (n.base.mark ++ n.digits.map Digit.char) (n.digits.map Digit.char) n.base.radix := by
  obtain ⟨base, first, others, suffix⟩ := n
  cases base with
  | hexadecimal capital => cases capital <;> exact .hexadecimal rfl
  | octal =>
      refine .octal ?_
      have digit := Digit.isDigit_char (h.digits first List.mem_cons_self)
      unfold Cursor.isHex
      split
      case h_1 same | h_2 same =>
        rw [(List.cons.inj (List.cons.inj same).2).1] at digit
        cases digit
      case h_3 => rfl
  | decimal =>
      have notOctal : ∀ c cs, first.char :: others.map Digit.char ≠ '0' :: c :: cs := by
        intro c cs same
        obtain ⟨zero, same⟩ := List.cons.inj same
        obtain rfl : others = [] := h.noMark rfl (Digit.char_eq_zero zero)
        cases same
      refine .decimal ?_ notOctal
      change Cursor.isHex (first.char :: others.map Digit.char) = false
      unfold Cursor.isHex
      split
      case h_1 same | h_2 same => exact absurd same (notOctal _ _)
      case h_3 => rfl

/-- What reading an integer constant gives. -/
def Means (n : Numeral) : Except LexError TokenKind → Prop
  | .ok kind => n.kind? = some kind
  | .error e => n.Refused e

theorem integer_spelling (h : n.WellFormed) : n.Means (Cursor.integer n.spelling) := by
  have reads := reading_digitsValue n.base (String.ofList n.spelling) [] n.digits (by simp)
  have some : n.digits.map Digit.char ≠ [] := List.cons_ne_nil _ _
  rw [Nat.ofDigits_nil] at reads
  rw [integer_of_splits (n.takeWhile_spelling.1 ▸ splits_body h)
    (n.takeWhile_spelling.2 ▸ n.suffix.suffixFlags?_spelling) some]
  generalize Cursor.digitsValue n.base.radix _ 0 _ = r at reads ⊢
  have base : (n.base.radix == 10) = (n.base == .decimal) := by
    rcases n.base with _ | _ | _ <;> rfl
  have value : Nat.ofDigits n.base.radix ((n.digits.map (·.value.val)).reverse ++ []) = n.value := by
    rw [List.append_nil, ← List.map_reverse, Numeral.value]
  cases r with
  | ok v =>
      obtain ⟨digits, rfl, low⟩ := reads
      rw [value] at low ⊢
      have accepted : ¬(n.HasWrongDigit ∨ 2 ^ 64 ≤ n.value) := by
        rintro (⟨d, member, wrong⟩ | large)
        · exact Nat.not_le_of_lt (digits _ (List.mem_map_of_mem member)) wrong
        · exact Nat.not_le_of_lt low large
      simp only [Except.map, Means, kind?, if_neg accepted, base]
  | error e =>
      rw [Reading, value] at reads
      exact reads.imp_left fun ⟨⟨v, member, wrong⟩, cause⟩ => by
        obtain ⟨d, here, rfl⟩ := List.mem_map.mp member
        exact ⟨⟨d, here, wrong⟩, cause⟩

theorem isHex_spelling (h : n.WellFormed) :
    Cursor.isHex n.spelling = true ∨ ∀ c ∈ n.spelling, c ≠ '.' ∧ c ≠ 'e' ∧ c ≠ 'E' := by
  obtain ⟨base, first, others, suffix⟩ := n
  have digits (decimal : base.written = 10) : ∀ c ∈ (first :: others).map Digit.char,
      c ≠ '.' ∧ c ≠ 'e' ∧ c ≠ 'E' := by
    intro c member
    obtain ⟨d, here, rfl⟩ := List.mem_map.mp member
    have digit := Digit.isDigit_char (decimal ▸ h.digits d here)
    refine ⟨?_, ?_, ?_⟩ <;>
    · intro same
      rw [same] at digit
      cases digit
  have letters : ∀ c ∈ suffix.spelling, c ≠ '.' ∧ c ≠ 'e' ∧ c ≠ 'E' := by
    revert suffix
    intro suffix _ c member
    have start := suffix.isSuffixStart_of_mem c member
    refine ⟨?_, ?_, ?_⟩ <;>
    · rintro rfl
      cases start
  cases base with
  | hexadecimal capital => exact .inl (by cases capital <;> rfl)
  | octal | decimal =>
      refine .inr fun c member => ?_
      rcases List.mem_append.mp member with front | suffix
      · rcases List.mem_append.mp front with mark | digit
        · have all : ∀ c ∈ ['0'], c ≠ '.' ∧ c ≠ 'e' ∧ c ≠ 'E' :=
            forall_mem_of_all (by decide)
          exact all c (by first | exact mark | cases mark)
        · exact digits rfl c digit
      · exact letters c suffix

theorem number_spelling (h : n.WellFormed) : n.Means (Cursor.number n.spelling) := by
  have whole : (!Cursor.isHex n.spelling &&
      n.spelling.any fun c => c == '.' || c == 'e' || c == 'E') = false := by
    rcases isHex_spelling h with hex | plain
    · rw [hex]
      rfl
    · rw [Bool.and_eq_false_iff, List.any_eq_false]
      exact .inr fun c member => by simp [plain c member]
  rw [Cursor.number, whole]
  exact integer_spelling h

theorem numberSpan_run {run tail : List Char} (isWord : ∀ c ∈ run, Text.isWordChar c = true)
    (ends : EndsToken tail) (hex afterExponent : Bool) (loc : Location) :
    Cursor.numberSpan hex afterExponent loc (run ++ tail) =
      (run, ⟨tail, run.foldl Location.after loc⟩) := by
  induction run generalizing afterExponent loc with
  | nil =>
      cases tail with
      | nil => rfl
      | cons c tail =>
          have stops : (Text.isWordChar c || c == '.' ||
              (!hex && afterExponent && (c == '+' || c == '-'))) = false := by
            obtain rfl | rfl | rfl | rfl | rfl | rfl := (ends c rfl).cases <;>
              cases hex <;> cases afterExponent <;> decide
          rw [List.nil_append, Cursor.numberSpan, stops]
          rfl
  | cons c run ih =>
      rw [List.forall_mem_cons] at isWord
      rw [List.cons_append, Cursor.numberSpan, isWord.1, ih isWord.2]
      rfl

/-- A constant starts with a digit. -/
theorem spelling_eq_cons (h : n.WellFormed) :
    ∃ c cs, n.spelling = c :: cs ∧ c.isDigit = true := by
  obtain ⟨base, first, others, suffix⟩ := n
  cases base with
  | hexadecimal capital => cases capital <;> exact ⟨'0', _, rfl, rfl⟩
  | octal => exact ⟨'0', _, rfl, rfl⟩
  | decimal => exact ⟨first.char, _, rfl, Digit.isDigit_char (h.digits first List.mem_cons_self)⟩

theorem lexeme_spelling (h : n.WellFormed) {c : Char} {cs tail : List Char}
    (spelled : n.spelling = c :: cs) (ends : EndsToken tail) (loc : Location) :
    ∃ r, Cursor.lexeme c (cs ++ tail) loc = (r, ⟨tail, n.spelling.foldl Location.after loc⟩) ∧
      n.Means r := by
  obtain ⟨c', cs', same, digit⟩ := spelling_eq_cons h
  obtain ⟨rfl, rfl⟩ := List.cons.inj (same.symm.trans spelled)
  have isWord : ∀ c ∈ cs', Text.isWordChar c = true :=
    fun c member => isWordChar_of_mem c (spelled ▸ List.mem_cons_of_mem _ member)
  refine ⟨Cursor.number n.spelling, ?_, number_spelling h⟩
  unfold Cursor.lexeme
  dsimp only
  rw [isWordStart_of_isDigit digit, digit, numberSpan_run isWord ends, ← spelled]
  simp [spelled]

end Numeral

/-! ### Characters and strings -/

/-- The escape sequence of three octal digits for a byte. -/
def octalEscape (b : UInt8) : List Char :=
  ['\\', Nat.digitChar (b.toNat / 64), Nat.digitChar (b.toNat / 8 % 8), Nat.digitChar (b.toNat % 8)]

theorem digit?_digitChar {k : Nat} (low : k < 8) :
    Cursor.digit? 8 (Nat.digitChar k) = some k ∧ Cursor.simpleEscape? (Nat.digitChar k) = none := by
  have all : ∀ k < 8, Cursor.digit? 8 (Nat.digitChar k) = some k ∧
      Cursor.simpleEscape? (Nat.digitChar k) = none := by decide
  exact all k low

theorem octalEscape_eq_cons (b : UInt8) : octalEscape b = '\\' :: (octalEscape b).tail := rfl

theorem escape_octalEscape (b : UInt8) (loc : Location) (tail : List Char) :
    Cursor.escape loc ((octalEscape b).tail ++ tail) =
      (.ok b, ⟨tail, (octalEscape b).tail.foldl Location.after loc⟩) := by
  have low := b.toNat_lt
  obtain ⟨first, plain⟩ := digit?_digitChar (k := b.toNat / 64) (by omega)
  have second := (digit?_digitChar (k := b.toNat / 8 % 8) (Nat.mod_lt _ (by decide))).1
  have third := (digit?_digitChar (k := b.toNat % 8) (Nat.mod_lt _ (by decide))).1
  have value : (b.toNat / 64 * 8 + b.toNat / 8 % 8) * 8 + b.toNat % 8 = b.toNat := by omega
  simp only [octalEscape, List.tail_cons, List.cons_append, List.nil_append, Cursor.escape, first,
    plain, Cursor.octalDigits, second, third, value, UInt8.ofNat_toNat, List.foldl_cons,
    List.foldl_nil]

theorem character_octalEscape (b : UInt8) (loc : Location) (tail : List Char) :
    Cursor.character loc (octalEscape b ++ '\'' :: tail) =
      (.ok (.char b.toInt8.toInt),
        ⟨tail, (octalEscape b ++ ['\'']).foldl Location.after loc⟩) := by
  have signed : b.toInt8.toInt = if b < 128 then (b.toNat : Int) else (b.toNat : Int) - 256 := by
    have cond := BitVec.toInt_eq_toNat_cond b.toBitVec
    rw [← UInt8.toBitVec_toInt8, Int8.toInt_toBitVec] at cond
    have low : b < 128 ↔ b.toNat < 128 := UInt8.lt_iff_toNat_lt
    have cond : b.toInt8.toInt =
        if 2 * b.toNat < 256 then (b.toNat : Int) else (b.toNat : Int) - 256 := cond
    by_cases small : b.toNat < 128
    · rw [cond, if_pos (low.mpr small), if_pos (by omega)]
    · rw [cond, if_neg (mt low.mp small), if_neg (by omega)]
  rw [octalEscape_eq_cons, List.cons_append, Cursor.character, escape_octalEscape]
  simp only [Cursor.closeCharacter, Cursor.passQuote, List.head?_cons, if_true, ← signed,
    List.cons_append, List.foldl_cons, List.foldl_append, List.foldl_nil]

theorem string_octalEscapes (bs acc : List UInt8) (loc : Location) (tail : List Char) :
    Cursor.string acc loc (bs.flatMap octalEscape ++ '"' :: tail) =
      (.ok (.str (acc.reverse ++ bs)),
        ⟨tail, (bs.flatMap octalEscape ++ ['"']).foldl Location.after loc⟩) := by
  induction bs generalizing acc loc with
  | nil => simp [Cursor.string]
  | cons b bs ih =>
      rw [List.flatMap_cons, List.append_assoc, octalEscape_eq_cons, List.cons_append,
        Cursor.string_escape (escape_octalEscape b _ _), ih]
      simp only [List.reverse_cons, List.append_assoc, List.cons_append, List.nil_append,
        List.foldl_cons, List.foldl_append]

/-! ### Tokens -/

/-- A name that the scanner reads as one word. -/
def IsName (cs : List Char) : Prop :=
  cs.head?.any Text.isWordStart = true ∧ ∀ c ∈ cs, Text.isWordChar c = true

instance (cs : List Char) : Decidable (IsName cs) :=
  have := List.decidableBAll (Text.isWordChar · = true) cs
  inferInstanceAs (Decidable (_ ∧ _))

theorem span_run {p : Char → Bool} {run tail : List Char} (all : ∀ c ∈ run, p c = true)
    (stops : tail.head?.any p = false) (loc : Location) :
    Cursor.span p loc (run ++ tail) = (run, ⟨tail, run.foldl Location.after loc⟩) := by
  induction run generalizing loc with
  | nil =>
      cases tail with
      | nil => rfl
      | cons c tail =>
          have stops : p c = false := stops
          rw [List.nil_append, Cursor.span, stops]
          rfl
  | cons c run ih =>
      rw [List.forall_mem_cons] at all
      rw [List.cons_append, Cursor.span, all.1, ih all.2]
      rfl

/-- A token as it is written. -/
inductive WrittenToken where
  | identifier (name : String)
  | keyword (kw : Keyword)
  | punctuator (p : Punct)
  | integer (n : Numeral)
  | character (b : UInt8)
  | string (bs : List UInt8)
  deriving DecidableEq, Repr

namespace WrittenToken

def spelling : WrittenToken → List Char
  | identifier name => name.toList
  | keyword kw => kw.spelling.toList
  | punctuator p => p.spelling.toList
  | integer n => n.spelling
  | character b => '\'' :: (octalEscape b ++ ['\''])
  | string bs => '"' :: (bs.flatMap octalEscape ++ ['"'])

/-- The token that it is, if it is one. -/
def kind? : WrittenToken → Option TokenKind
  | identifier name => some (.ident name)
  | keyword kw => some (.keyword kw)
  | punctuator p => some (.punct p)
  | integer n => n.kind?
  | character b => some (.char b.toInt8.toInt)
  | string bs => some (.str bs)

/-- Why it is none. -/
def Refused (w : WrittenToken) (e : LexError) : Prop := ∃ n, w = integer n ∧ n.Refused e

/-- An identifier is a name and no keyword, and an integer constant has the digits that its base is
written with. -/
def WellFormed : WrittenToken → Prop
  | identifier name => IsName name.toList ∧ ∀ kw : Keyword, kw.spelling ≠ name
  | integer n => n.WellFormed
  | _ => True

/-- What reading it gives. -/
def Means (w : WrittenToken) : Except LexError TokenKind → Prop
  | .ok kind => w.kind? = some kind
  | .error e => w.kind? = none ∧ w.Refused e

theorem lexeme_name {c : Char} {cs tail : List Char} (name : IsName (c :: cs))
    (ends : EndsToken tail) (loc : Location) :
    Cursor.lexeme c (cs ++ tail) loc =
      (.ok (Cursor.word (String.ofList (c :: cs))), ⟨tail, (c :: cs).foldl Location.after loc⟩) := by
  have start : Text.isWordStart c = true := name.1
  have stops : tail.head?.any Text.isWordChar = false :=
    ends.not_head fun c blank => by
      obtain rfl | rfl | rfl | rfl | rfl | rfl := blank.cases <;> decide
  unfold Cursor.lexeme
  dsimp only
  rw [start, span_run (fun c member => name.2 c (List.mem_cons_of_mem _ member)) stops]
  rfl

theorem word_of_keyword (kw : Keyword) : Cursor.word kw.spelling = .keyword kw := by
  cases kw <;> rfl

theorem word_of_identifier {name : String} (noKeyword : ∀ kw : Keyword, kw.spelling ≠ name) :
    Cursor.word name = .ident name := by
  have none : Keyword.ofSpelling? name = none := by
    rw [Keyword.ofSpelling?, List.find?_eq_none]
    exact fun kw _ => by simpa using noKeyword kw
  rw [Cursor.word, none]

/-- Where a punctuator stands, no other token starts. -/
theorem lexeme_of_ofStart? {p : Punct} {c : Char} {cs rest : List Char} (sign : Punct.IsSign c)
    (noFraction : cs.head?.any Char.isDigit = false)
    (found : Punct.ofStart? (c :: cs) = some (p, rest)) (loc : Location) :
    Cursor.lexeme c cs loc =
      (.ok (.punct p), ⟨rest, p.spelling.toList.foldl Location.after loc⟩) := by
  obtain ⟨notWord, notQuote, notQuotes, -⟩ := sign.startsNothing
  unfold Cursor.lexeme
  dsimp only
  rw [notWord, sign.notDigit, noFraction, notQuote, notQuotes, Bool.and_false, found]
  rfl

theorem lexeme_punctuator {p : Punct} {c : Char} {cs tail : List Char}
    (spelled : p.spelling.toList = c :: cs) (ends : EndsToken tail) (loc : Location) :
    Cursor.lexeme c (cs ++ tail) loc =
      (.ok (.punct p), ⟨tail, p.spelling.toList.foldl Location.after loc⟩) := by
  have found := p.ofStart?_spelling ends
  rw [spelled, List.cons_append] at found
  refine lexeme_of_ofStart? (Punct.isSign_of_mem (spelled ▸ List.mem_cons_self)) ?_ found loc
  cases cs with
  | nil =>
      exact ends.not_head fun c blank => by
        obtain rfl | rfl | rfl | rfl | rfl | rfl := blank.cases <;> decide
  | cons d cs => exact (Punct.isSign_of_mem (p := p) (spelled ▸ .tail _ (.head _))).notDigit

/-- Reading a token that was written gives what it means, and stops behind it. -/
theorem lexeme_spelling {w : WrittenToken} (h : w.WellFormed) {c : Char} {cs tail : List Char}
    (spelled : w.spelling = c :: cs) (ends : EndsToken tail) (loc : Location) :
    ∃ r, Cursor.lexeme c (cs ++ tail) loc = (r, ⟨tail, w.spelling.foldl Location.after loc⟩) ∧
      w.Means r := by
  cases w with
  | identifier name =>
      have spelled : name.toList = c :: cs := spelled
      have isName : IsName (c :: cs) := spelled ▸ h.1
      refine ⟨_, spelled ▸ lexeme_name isName ends loc, ?_⟩
      rw [String.ofList_toList, word_of_identifier h.2]
      rfl
  | keyword kw =>
      have spelled : kw.spelling.toList = c :: cs := spelled
      have isName : IsName kw.spelling.toList := by cases kw <;> decide
      rw [spelled] at isName
      refine ⟨_, spelled ▸ lexeme_name isName ends loc, ?_⟩
      rw [String.ofList_toList, word_of_keyword]
      rfl
  | punctuator p => exact ⟨_, lexeme_punctuator spelled ends loc, rfl⟩
  | integer n =>
      obtain ⟨r, read, means⟩ := Numeral.lexeme_spelling h spelled ends loc
      refine ⟨r, read, ?_⟩
      cases r with
      | ok kind => exact means
      | error e =>
          exact ⟨n.kind?_eq_none_iff.mpr (means.imp And.left And.left), n, rfl, means⟩
  | character b =>
      obtain ⟨rfl, rfl⟩ := List.cons.inj spelled
      refine ⟨.ok (.char b.toInt8.toInt), ?_, rfl⟩
      rw [List.append_assoc, List.singleton_append]
      exact character_octalEscape b (loc.after '\'') tail
  | string bs =>
      obtain ⟨rfl, rfl⟩ := List.cons.inj spelled
      refine ⟨.ok (.str bs), ?_, rfl⟩
      rw [List.append_assoc, List.singleton_append]
      exact string_octalEscapes bs [] (loc.after '"') tail

theorem startsDense_cons {c : Char} {cs : List Char} (notBlank : ¬IsBlank c) (notSplice : c ≠ '\\')
    (noComment : c = '/' → ∀ d ∈ cs.head?, d ≠ '/' ∧ d ≠ '*') : Cursor.StartsDense (c :: cs) := by
  rw [IsBlank, not_or] at notBlank
  intro newline loc
  rw [Cursor.skipTrivia, if_neg notBlank.1]
  · exact notBlank.2
  · exact fun others splice _ => notSplice splice
  · rintro others rfl rfl
    exact (noComment rfl _ rfl).1 rfl
  · rintro others rfl rfl
    exact (noComment rfl _ rfl).2 rfl

/-- No white space stands in front of a token. -/
theorem startsDense_spelling {w : WrittenToken} (h : w.WellFormed) {tail : List Char}
    (ends : EndsToken tail) : Cursor.StartsDense (w.spelling ++ tail) := by
  have ofWord {c : Char} {cs : List Char} (isWord : Text.isWordChar c = true) :
      Cursor.StartsDense (c :: cs) := by
    refine startsDense_cons (fun blank => ?_) ?_ ?_
    · obtain rfl | rfl | rfl | rfl | rfl | rfl := blank.cases <;> cases isWord
    · rintro rfl
      cases isWord
    · rintro rfl
      cases isWord
  have ofName {cs : List Char} (name : IsName cs) : Cursor.StartsDense (cs ++ tail) := by
    cases cs with
    | nil => cases name.1
    | cons c cs => exact ofWord (name.2 c List.mem_cons_self)
  cases w with
  | identifier name => exact ofName h.1
  | keyword kw =>
      have name : IsName kw.spelling.toList := by cases kw <;> decide
      exact ofName name
  | integer n =>
      cases spelled : n.spelling with
      | nil => exact absurd spelled n.spelling_ne_nil
      | cons c cs =>
          change Cursor.StartsDense (n.spelling ++ tail)
          rw [spelled]
          exact ofWord (Numeral.isWordChar_of_mem c (spelled ▸ List.mem_cons_self))
  | character b => exact startsDense_cons (by decide) (by decide) nofun
  | string bs => exact startsDense_cons (by decide) (by decide) nofun
  | punctuator p =>
      change Cursor.StartsDense (p.spelling.toList ++ tail)
      have slash (p : Punct) : p.spelling.toList.head? = some '/' →
          p.spelling.toList.tail.head? ≠ some '/' ∧ p.spelling.toList.tail.head? ≠ some '*' := by
        cases p <;> decide
      cases spelled : p.spelling.toList with
      | nil => exact absurd spelled (by cases p <;> decide)
      | cons c cs =>
          have first : Punct.IsSign c := Punct.isSign_of_mem (spelled ▸ List.mem_cons_self)
          refine startsDense_cons first.notBlank first.startsNothing.2.2.2 ?_
          rintro rfl d next
          cases cs with
          | nil =>
              obtain rfl | rfl | rfl | rfl | rfl | rfl := (ends d next).cases <;> decide
          | cons d' cs =>
              cases next
              have ⟨line, block⟩ := slash p (by rw [spelled]; rfl)
              rw [spelled] at line block
              exact ⟨fun same => line (congrArg some same), fun same => block (congrArg some same)⟩

theorem spelling_ne_nil {w : WrittenToken} (h : w.WellFormed) : w.spelling ≠ [] := by
  cases w with
  | identifier name =>
      intro nothing
      have start := h.1.1
      rw [show name.toList = [] from nothing] at start
      cases start
  | keyword kw => cases kw <;> exact List.cons_ne_nil _ _
  | punctuator p => cases p <;> exact List.cons_ne_nil _ _
  | integer n => exact n.spelling_ne_nil
  | character | string => exact List.cons_ne_nil _ _

end WrittenToken

end LiveC
