import LiveC.Parser.Source
import LiveC.Proofs.ConstantSyntax
import LiveC.Proofs.Evaluation

/-!
The types of integer constants. C lists the types that a constant may have by its base and its
suffix, and the constant has the first of them that can represent its value. A constant that no
type of its list can represent is taken for an `unsigned long`.
-/

namespace LiveC

namespace IntType

/-- C lists the type for constants of a base and a suffix. Behind `u` only unsigned types are
listed, and behind `l` only long ones; a decimal constant without `u` is signed. -/
def IsListed (unsigned long decimal : Bool) (t : IntType) : Prop :=
  (unsigned = true → t.signed = false) ∧ (long = true → t.width = .w64) ∧
    (t.signed = false → unsigned = true ∨ decimal = false)

instance (unsigned long decimal : Bool) (t : IntType) :
    Decidable (t.IsListed unsigned long decimal) := inferInstanceAs (Decidable (_ ∧ _ ∧ _))

/-- The types that C lists for constants of a base and a suffix, in its order. -/
def listed (unsigned long decimal : Bool) : List IntType :=
  [int, uint, IntType.long, ulong].filter (IsListed unsigned long decimal)

/-- The type of a constant of a value for which C lists some types. -/
inductive IsConstantType (types : List IntType) (v : Int) : IntType → Prop
  | first {before after : List IntType} {t : IntType} : types = before ++ t :: after →
      (∀ s ∈ before, ¬s.Represents v) → t.Represents v → IsConstantType types v t
  | fallback : (∀ s ∈ types, ¬s.Represents v) → IsConstantType types v ulong

variable {unsigned long decimal : Bool} {value : Nat} {t : IntType}

theorem literalCandidates_eq (unsigned long decimal : Bool) :
    literalCandidates unsigned long decimal = listed unsigned long decimal := by
  cases unsigned <;> cases long <;> cases decimal <;> rfl

/-- A type can hold the numbers up to its greatest value. -/
theorem fits_iff_represents : t.fits value = true ↔ t.Represents value := by
  obtain ⟨w, s⟩ := t
  cases w <;> cases s <;>
    simp [fits, maxValue, Represents, Width.bits, Width.bytes] <;> omega

theorem isConstantType_ofLiteral (value : Nat) (unsigned long decimal : Bool) :
    IsConstantType (listed unsigned long decimal) value
      (ofLiteral value unsigned long decimal) := by
  rw [ofLiteral, literalCandidates_eq]
  cases found : (listed unsigned long decimal).find? (fits · value) with
  | some t =>
      obtain ⟨fits, before, after, split, others⟩ := List.find?_eq_some_iff_append.mp found
      refine .first split (fun s member represents => ?_) (fits_iff_represents.mp fits)
      simpa [fits_iff_represents.mpr represents] using others s member
  | none =>
      refine .fallback fun s member represents => ?_
      exact List.find?_eq_none.mp found s member (fits_iff_represents.mpr represents)

/-- Whatever type a constant has, it can represent the value. -/
theorem IsConstantType.represents {types : List IntType} (h : IsConstantType types value t)
    (small : value < 2 ^ 64) : t.Represents value := by
  cases h with
  | first _ _ represents => exact represents
  | fallback => exact ⟨Int.natCast_nonneg value, by exact_mod_cast small⟩

/-- Only the lists of decimal constants without `u` leave out values. -/
theorem forall_listed_not_represents (small : value < 2 ^ 64) :
    (∀ t ∈ listed unsigned long decimal, ¬t.Represents value) ↔
      decimal = true ∧ unsigned = false ∧ 2 ^ 63 ≤ value := by
  rw [← literalCandidates_eq]
  cases unsigned <;> cases long <;> cases decimal <;>
    simp [literalCandidates, Represents, int, uint, IntType.long, ulong, Width.bits,
      Width.bytes] <;>
    omega

/-- A number that a type can represent is its own canonical word. -/
theorem wrap_ofNat (h : t.Represents value) :
    t.wrap (BitVec.ofNat 64 value) = BitVec.ofNat 64 value := by
  rw [← BitVec.ofInt_natCast, wrap_ofInt, reduce_of_represents h]

end IntType

/-- The constant that an integer token stands for: its type is the one that C gives it, and its word
is the canonical one of its value. -/
structure Expr.IsConstantOf (types : List IntType) (value : Nat) (t : IntType) (w : Word) : Prop where
  type : IntType.IsConstantType types value t
  canonical : t.wrap w = w
  value_eq : t.value w = value

namespace Parser

/-- Every integer token is read as a constant of the type that C gives it. The lists of decimal
constants without `u` end at `2 ^ 63 - 1`; what is beyond is read as an `unsigned long` like all
else, and nothing is reported: the parser has the warnings that it had. -/
theorem integerConstant_typed (g : Productions) {s : ParserState} {rest : List Token} {value : Nat}
    {unsigned long decimal : Bool} {loc : Location}
    (token : s.rest = ⟨.int value unsigned long decimal, loc⟩ :: rest) (small : value < 2 ^ 64) :
    (∃ t w, primary g s = .ok (.int ⟨.int t, loc⟩ w) { s with rest } ∧
      Expr.IsConstantOf (IntType.listed unsigned long decimal) value t w) ∧
    ((∀ t ∈ IntType.listed unsigned long decimal, ¬t.Represents value) ↔
      decimal = true ∧ unsigned = false ∧ 2 ^ 63 ≤ value) := by
  have type := IntType.isConstantType_ofLiteral value unsigned long decimal
  have represents := type.represents small
  have canonical := IntType.wrap_ofNat represents
  refine ⟨⟨_, BitVec.ofNat 64 value, ?_, type, canonical, ?_⟩,
    IntType.forall_listed_not_represents small⟩
  · have fits := IntType.fits_iff_represents.mpr represents
    have front : s.front = ⟨.int value unsigned long decimal, loc⟩ := by
      rw [ParserState.front, token]
      rfl
    have behind : s.rest.tail = rest := by rw [token, List.tail_cons]
    rw [primary, next_run, front, behind]
    simp only [fits, Bool.not_true, Bool.false_eq_true, if_false]
    rfl
  · rw [← BitVec.ofInt_natCast, IntType.value_ofInt represents]

theorem integerConstant_typed_signBit :
    let s : ParserState :=
      { rest := [⟨.int (2 ^ 63) false false true, .start⟩, ⟨.punct .semicolon, .start⟩]
        endLoc := .start }
    2 ^ 63 < 2 ^ 64 ∧
      (∃ t w, primary (productions 1) s =
          .ok (.int ⟨.int t, .start⟩ w) { s with rest := [⟨.punct .semicolon, .start⟩] } ∧
        Expr.IsConstantOf [.int, .long] (2 ^ 63) t w) ∧
      ∀ t ∈ [IntType.int, .long], ¬t.Represents (2 ^ 63 : Nat) := by
  intro s
  have small : 2 ^ 63 < 2 ^ 64 := by decide
  obtain ⟨constant, beyond⟩ := integerConstant_typed (productions 1) (s := s) rfl small
  exact ⟨small, constant, beyond.mpr ⟨rfl, rfl, Nat.le_refl _⟩⟩

end Parser

/-- A decimal constant that neither `int` nor `long` can represent is accepted without a warning. -/
theorem parseSource_of_largeConstant :
    (∀ t ∈ IntType.listed false false true, ¬t.Represents 9223372036854775808) ∧
      (parseSource "unsigned long f(void) \x7b return 9223372036854775808; \x7d" []).toOption.any
        (fun r => r.2.isEmpty && r.1.functions.any fun f => match f.body with
          | [.return (some (.int m w))] => m.ty == .int .ulong && w == BitVec.ofNat 64 (2 ^ 63)
          | _ => false) = true := by
  refine ⟨by decide +kernel, ?_⟩
  rw [parseSource_of_bytes (Text.toByteChars_of_all ?_)]
  all_goals decide +kernel

end LiveC
