import Mathlib
import LiveC.Double

/-!
The numbers that doubles stand for. A finite double stands for a significand times a power of two,
with a sign, and rounding it toward zero is to shift its significand. A word that is the value of
some double converts to a double of that value: its leading fifty-three bits are the significand,
so that nothing is lost where the conversion rounds.
-/

namespace LiveC

open Float.Model Float.Model.UnpackedFloat

/-! ### Rounding toward zero -/

/-- The integral part of a number. -/
def towardZero (q : ℚ) : ℤ := if 0 ≤ q then ⌊q⌋ else ⌈q⌉

theorem towardZero_natCast (n : Nat) : towardZero n = n := by
  rw [towardZero, if_pos (Nat.cast_nonneg n), Int.floor_natCast]

theorem floor_scaled (m : Nat) (e : ℤ) :
    ⌊(m * 2 ^ e : ℚ)⌋ = (if 0 ≤ e then m <<< e.toNat else m >>> (-e).toNat : Nat) := by
  split
  case isTrue up =>
    obtain ⟨k, rfl⟩ := Int.eq_ofNat_of_zero_le up
    rw [Int.toNat_natCast, Nat.shiftLeft_eq, zpow_natCast]
    exact_mod_cast Int.floor_natCast (R := ℚ) (m * 2 ^ k)
  case isFalse down =>
    obtain ⟨k, hk⟩ := Int.eq_ofNat_of_zero_le (show 0 ≤ -e by omega)
    rw [hk, Int.toNat_natCast, Nat.shiftRight_eq_div_pow, ← neg_neg e, hk, zpow_neg, zpow_natCast,
      ← div_eq_mul_inv]
    exact_mod_cast Rat.floor_natCast_div_natCast m (2 ^ k)

namespace Double

def IsFinite (d : Double) : Prop := d.exponentBits ≠ 2047

instance (d : Double) : Decidable d.IsFinite := inferInstanceAs (Decidable (_ ≠ _))

theorem IsFinite.isNaN {d : Double} (h : d.IsFinite) : d.isNaN = false := by
  rw [Double.isNaN, beq_eq_false_iff_ne.mpr h, Bool.false_and]

theorem IsFinite.isInfinite {d : Double} (h : d.IsFinite) : d.isInfinite = false := by
  rw [Double.isInfinite, beq_eq_false_iff_ne.mpr h, Bool.false_and]

/-- The number that a finite double stands for. -/
def value (d : Double) : ℚ :=
  (if d.isNegative then -1 else 1) * (d.significand * 2 ^ d.exponent)

theorem magnitude_nonneg (d : Double) : (0 : ℚ) ≤ d.significand * 2 ^ d.exponent :=
  mul_nonneg (Nat.cast_nonneg _) (zpow_nonneg zero_le_two _)

theorem truncate_eq (d : Double) : d.truncate = towardZero d.value := by
  have nonneg := d.magnitude_nonneg
  have floor := floor_scaled d.significand d.exponent
  unfold truncate towardZero value
  dsimp only
  rw [← floor]
  cases d.isNegative with
  | false => simp [nonneg]
  | true =>
      simp only [if_true, neg_one_mul, Int.ceil_neg]
      split
      case isTrue sign =>
        -- the negative zero
        have zero : (d.significand * 2 ^ d.exponent : ℚ) = 0 := by linarith
        simp [zero]
      case isFalse => rfl

theorem significand_lt (d : Double) : d.significand < 2 ^ 53 := by
  have fraction : d.fractionBits < 2 ^ 52 := Nat.mod_lt _ (by decide)
  unfold significand
  split <;> omega

end Double

/-! ### Rounding what need not be rounded -/

theorem log2_mul_two_pow {n : Nat} (h : n ≠ 0) (j : Nat) : (n * 2 ^ j).log2 = n.log2 + j := by
  rw [Nat.log2_eq_iff (by positivity), Nat.add_right_comm, Nat.pow_add, Nat.pow_add]
  exact ⟨Nat.mul_le_mul_right _ (Nat.log2_self_le h),
    Nat.mul_lt_mul_of_pos_right Nat.lt_log2_self (by positivity)⟩

namespace Double

/-- A significand of fifty-three bits, and an exponent that a double has room for. -/
structure IsNormal (m : Nat) (e : Int) : Prop where
  least : 2 ^ 52 ≤ m
  greatest : m < 2 ^ 53
  exponent_ge : -1074 ≤ e
  exponent_le : e ≤ 971

variable {m n : Nat} {e : Int}

namespace IsNormal

theorem pos (h : IsNormal m e) : 0 < m := Nat.lt_of_lt_of_le (by decide) h.least

theorem log2 (h : IsNormal m e) : m.log2 = 52 :=
  (Nat.log2_eq_iff (Nat.ne_of_gt h.pos)).mpr ⟨h.least, h.greatest⟩

/-- However a number is split into an integer and a power of two, it is rounded at the same bit. -/
theorem targetExponent (h : IsNormal m e) {x : Int} (total : n.log2 + x = 52 + e) :
    Format.binary64.targetExponent (totalExponent n x) = e := by
  have ge := h.exponent_ge
  simp only [Format.targetExponent, totalExponent, Format.mantissaBits, Format.minExponent]
  omega

theorem shiftToTargetExponent (h : IsNormal m e) (j : Nat) :
    UnpackedFloat.shiftToTargetExponent .binary64 (m * 2 ^ j) (e - j) .exact =
      (⟨m, false, false⟩, e) := by
  have shift (m j : Nat) :
      (⟨m * 2 ^ j, false, false⟩ : ExtendedMantissa) >>> j = ⟨m, false, false⟩ := by
    change j.repeat ExtendedMantissa.shiftRightOne _ = _
    induction j generalizing m with
    | zero => simp [Nat.repeat]
    | succ j ih =>
        rw [Nat.repeat, Nat.pow_succ', ← Nat.mul_assoc, ih]
        simp [ExtendedMantissa.shiftRightOne]
  have log2 := log2_mul_two_pow (Nat.ne_of_gt h.pos) j
  rw [h.log2] at log2
  have target := h.targetExponent (n := m * 2 ^ j) (x := e - j) (by omega)
  have amount : (e - (e - (j : Int))).toNat = j := by omega
  simp only [UnpackedFloat.shiftToTargetExponent, target, shiftToExponent, amount,
    ExtendedMantissa.ofMantissaAndAccuracy, shift, Int.sub_add_cancel]

theorem roundWithAccuracy (h : IsNormal m e) (j : Nat) (s : Sign) :
    UnpackedFloat.roundWithAccuracy .binary64 s (m * 2 ^ j) (e - j) .exact =
      .finite s m e h.pos := by
  have first := h.shiftToTargetExponent j
  have second := h.shiftToTargetExponent 0
  rw [Nat.pow_zero, Nat.mul_one, Int.natCast_zero, Int.sub_zero] at second
  have rounded : ExtendedMantissa.roundedMantissa ⟨m, false, false⟩ = m := rfl
  simp only [UnpackedFloat.roundWithAccuracy, first, rounded, second]
  rw [dif_neg (Nat.ne_of_gt h.pos)]

/-- A significand with zeros behind it rounds to itself. -/
theorem round_mul (h : IsNormal m e) (j : Nat) (s : Sign) :
    UnpackedFloat.round .binary64 s (m * 2 ^ j) (e - j) = .finite s m e h.pos := by
  have log2 := log2_mul_two_pow (Nat.ne_of_gt h.pos) j
  rw [h.log2] at log2
  have target := h.targetExponent (n := m * 2 ^ j) (x := e - j) (by omega)
  have amount : (e - j - e).toNat = 0 := by omega
  simp only [UnpackedFloat.round, target, decreaseExponent, amount, Nat.shiftLeft_zero,
    Int.natCast_zero, Int.sub_zero, h.roundWithAccuracy j s]

/-- A number with fewer bits is filled up with zeros. -/
theorem round_of_mul_eq (h : IsNormal m e) {j : Nat} (filled : n * 2 ^ j = m) (s : Sign) :
    UnpackedFloat.round .binary64 s n (e + j) = .finite s m e h.pos := by
  have nonzero : n ≠ 0 := by
    rintro rfl
    have := h.pos
    omega
  have log2 := log2_mul_two_pow nonzero j
  rw [filled, h.log2] at log2
  have target := h.targetExponent (n := n) (x := e + j) (by omega)
  have amount : (e + j - e).toNat = j := by omega
  have whole := h.roundWithAccuracy 0 s
  rw [Nat.pow_zero, Nat.mul_one, Int.natCast_zero, Int.sub_zero] at whole
  simp only [UnpackedFloat.round, target, decreaseExponent, amount, Nat.shiftLeft_eq, filled,
    Int.add_sub_cancel, whole]

end IsNormal

/-! ### Doubles by their parts -/

/-- The double with a significand and an exponent. -/
def ofParts (h : IsNormal m e) : Double :=
  ⟨UnpackedFloat.pack .binary64 (.finite .positive m e h.pos)⟩

theorem bits_ofParts (h : IsNormal m e) : (ofParts h).bits =
    packComponents .binary64 .positive (BitVec.ofNat 11 (e + 1075).toNat) (BitVec.ofNat 52 m) := by
  have ge := h.exponent_ge
  have le := h.exponent_le
  have biased : (e + Format.binary64.exponentBias + (52 : Nat) : Int).toNat = (e + 1075).toNat := by
    simp only [Format.exponentBias]
    omega
  have finite : ¬2 ^ 11 ≤ (e + 1075).toNat + 1 := by omega
  simp only [ofParts, UnpackedFloat.pack, biased, h.log2]
  rw [if_neg finite, if_pos (show 52 + 1 = Format.mantissaBits .binary64 from rfl)]

theorem toNat_ofParts (h : IsNormal m e) :
    (ofParts h).bits.toNat = 2 ^ 52 * (e + 1075).toNat + (m - 2 ^ 52) := by
  have ge := h.exponent_ge
  have le := h.exponent_le
  have high := h.least
  have low := h.greatest
  rw [bits_ofParts, packComponents, BitVec.toNat_append, BitVec.toNat_append,
    ← Nat.shiftLeft_add_eq_or_of_lt (BitVec.isLt _), Nat.shiftLeft_eq]
  simp [Sign.toBitVec]
  omega

theorem unpack_ofParts (h : IsNormal m e) :
    UnpackedFloat.unpack .binary64 (ofParts h).bits = .finite .positive m e h.pos := by
  have ge := h.exponent_ge
  have le := h.exponent_le
  have high := h.least
  have low := h.greatest
  have toNat : (BitVec.ofNat 11 (e + 1075).toNat).toNat = (e + 1075).toNat := by
    rw [BitVec.toNat_ofNat]
    omega
  have finite : BitVec.ofNat 11 (e + 1075).toNat ≠ -1#11 := by
    refine fun same => absurd (toNat.symm.trans (congrArg BitVec.toNat same)) ?_
    rw [show (-1#11 : BitVec 11).toNat = 2047 from rfl]
    omega
  have normal : BitVec.ofNat 11 (e + 1075).toNat ≠ 0#11 := by
    refine fun same => absurd (toNat.symm.trans (congrArg BitVec.toNat same)) ?_
    rw [BitVec.toNat_zero]
    omega
  have significand : (1#1 ++ BitVec.ofNat 52 m).toNat = m := by
    rw [BitVec.toNat_append, ← Nat.shiftLeft_add_eq_or_of_lt (BitVec.isLt _), Nat.shiftLeft_eq]
    simp
    omega
  unfold UnpackedFloat.unpack
  rw [bits_ofParts]
  simp only [unpackMantissa_packComponents, unpackExponent_packComponents,
    unpackSign_packComponents, Sign.ofBitVec_toBitVec, significand]
  rw [if_neg finite, if_neg normal]
  congr 1
  rw [toNat]
  simp only [Format.exponentBias]
  omega

theorem isNegative_ofParts (h : IsNormal m e) : (ofParts h).isNegative = false := by
  have ge := h.exponent_ge
  have le := h.exponent_le
  have low := h.greatest
  rw [isNegative, BitVec.msb_eq_decide, decide_eq_false_iff_not, toNat_ofParts]
  omega

theorem exponentBits_ofParts (h : IsNormal m e) :
    (ofParts h).exponentBits = (e + 1075).toNat := by
  have le := h.exponent_le
  have low := h.greatest
  rw [exponentBits, toNat_ofParts, Nat.shiftRight_eq_div_pow]
  omega

theorem fractionBits_ofParts (h : IsNormal m e) : (ofParts h).fractionBits = m - 2 ^ 52 := by
  have high := h.least
  have low := h.greatest
  rw [fractionBits, toNat_ofParts]
  omega

theorem isFinite_ofParts (h : IsNormal m e) : (ofParts h).IsFinite := by
  have le := h.exponent_le
  rw [IsFinite, exponentBits_ofParts]
  omega

theorem value_ofParts (h : IsNormal m e) : (ofParts h).value = m * 2 ^ e := by
  have ge := h.exponent_ge
  have high := h.least
  have nonzero : (e + 1075).toNat ≠ 0 := by omega
  have exponent : (ofParts h).exponent = e := by
    rw [Double.exponent, exponentBits_ofParts, if_neg nonzero]
    omega
  have significand : (ofParts h).significand = m := by
    rw [Double.significand, exponentBits_ofParts, if_neg nonzero, fractionBits_ofParts]
    omega
  rw [value, isNegative_ofParts, exponent, significand, if_neg Bool.false_ne_true, one_mul]

theorem unpack_toModel_ofParts (h : IsNormal m e) :
    (ofParts h).toFloat.toModel.unpack = .finite .positive m e h.pos := by
  have packed : (ofParts h).toFloat.toModel = Float.Model.pack (.finite .positive m e h.pos) :=
    congrArg Float.Model.pack (unpack_ofParts h)
  rw [packed]
  exact unpack_ofParts h

/-- Doubling moves the exponent only. -/
theorem add_self_ofParts (h : IsNormal m e) (next : IsNormal m (e + 1)) :
    add (ofParts h) (ofParts h) = ofParts next := by
  have doubled : UnpackedFloat.add .binary64 (.finite .positive m e h.pos)
      (.finite .positive m e h.pos) = .finite .positive m (e + 1) h.pos := by
    have rounded := next.round_mul 1 .positive
    have positive : compare ((m : Int) + m) 0 = .gt := by
      have := h.pos
      rw [Int.compare_eq_gt]
      omega
    have sum : ((m : Int) + m).toNat = m * 2 ^ 1 := by omega
    have exponent : e + 1 - ((1 : Nat) : Int) = e := by omega
    rw [exponent] at rounded
    simp only [UnpackedFloat.add, decreaseExponent, Int.min_self, Int.sub_self, Int.toNat_zero,
      Nat.shiftLeft_zero, Sign.apply, UnpackedFloat.normalize, positive, sum, rounded]
  have same : ofFloat ((ofParts h).toFloat + (ofParts h).toFloat) = ofParts next := by
    change Double.mk (UnpackedFloat.pack .binary64 (UnpackedFloat.add .binary64
      (ofParts h).toFloat.toModel.unpack (ofParts h).toFloat.toModel.unpack)) = _
    rw [unpack_toModel_ofParts, doubled, ofParts]
  have number := (isFinite_ofParts h).isNaN
  rw [add, arith, if_neg (by simp [number]), if_neg (by simp [number])]
  dsimp only
  rw [same, if_neg (by simp [(isFinite_ofParts next).isNaN])]

/-! ### Words that are values of doubles -/

theorem ofNat_eq_ofParts {w : Word} (h : IsNormal m e) (value : (w.toNat : ℚ) = m * 2 ^ e) :
    ofNat w = ofParts h := by
  have nonneg : (0 : ℚ) < m := by exact_mod_cast h.pos
  have positive : 0 < w.toNat := by
    have : (0 : ℚ) < w.toNat := value ▸ mul_pos nonneg (zpow_pos two_pos _)
    exact_mod_cast this
  have rounded : UnpackedFloat.round .binary64 .positive w.toNat 0 =
      .finite .positive m e h.pos := by
    rcases le_total 0 e with up | down
    · obtain ⟨k, rfl⟩ := Int.eq_ofNat_of_zero_le up
      have whole := h.round_mul k .positive
      rw [zpow_natCast] at value
      have number : w.toNat = m * 2 ^ k := by exact_mod_cast value
      rwa [← number, Int.sub_self] at whole
    · obtain ⟨k, hk⟩ := Int.eq_ofNat_of_zero_le (show 0 ≤ -e by omega)
      obtain rfl : e = -(k : Int) := by omega
      have number : w.toNat * 2 ^ k = m := by
        have : (w.toNat : ℚ) * 2 ^ k = m := by
          rw [value, zpow_neg, zpow_natCast, inv_mul_cancel_right₀ (by positivity)]
        exact_mod_cast this
      have whole := h.round_of_mul_eq number .positive
      rwa [Int.add_left_neg] at whole
  have sign : compare (w.toNat : Int) 0 = .gt := by
    rw [Int.compare_eq_gt]
    omega
  change Double.mk (UnpackedFloat.pack .binary64
    (UnpackedFloat.normalize .binary64 w.toNat 0 .positive)) = _
  rw [UnpackedFloat.normalize, sign]
  dsimp only
  rw [Int.toNat_natCast, rounded, ofParts]

theorem ofInt_eq_ofNat {w : Word} (h : w.toNat < 2 ^ 63) : ofInt w = ofNat w := by
  have number : w.toInt = w.toNat := BitVec.toInt_eq_toNat_of_lt (by omega)
  rw [ofInt, number, Int.natAbs_natCast, BitVec.ofNat_toNat, BitVec.setWidth_eq,
    if_neg (by omega), ofNat]

/-- The number is the value of some double. -/
def Represented (n : Nat) : Prop := ∃ d : Double, d.IsFinite ∧ d.value = n

theorem two_zpow_of_le {x y : ℤ} (h : x ≤ y) : (2 : ℚ) ^ y = 2 ^ (y - x).toNat * 2 ^ x := by
  rw [← zpow_natCast, Int.toNat_of_nonneg (Int.sub_nonneg.mpr h), ← zpow_add₀ two_ne_zero,
    Int.sub_add_cancel]

theorem log2_bounds {n : Nat} (h : n ≠ 0) :
    (2 : ℚ) ^ (n.log2 : ℤ) ≤ n ∧ (n : ℚ) < 2 ^ (n.log2 + 1 : ℤ) := by
  have low := Nat.log2_self_le h
  have high := @Nat.lt_log2_self n
  exact ⟨by exact_mod_cast low, by exact_mod_cast high⟩

namespace Represented

/-- Behind its fifty-three leading bits there are zeros. -/
theorem scaled (h : Represented n) (nonzero : n ≠ 0) :
    ∃ (s : Nat) (x : ℤ), (n : ℚ) = s * 2 ^ x ∧ (n.log2 : ℤ) - 52 ≤ x := by
  rcases Nat.lt_or_ge 52 n.log2 with large | small
  · obtain ⟨d, -, value⟩ := h
    have positive : (0 : ℚ) < n := by exact_mod_cast Nat.pos_of_ne_zero nonzero
    have nonneg := d.magnitude_nonneg
    have magnitude : (n : ℚ) = d.significand * 2 ^ d.exponent := by
      rw [Double.value] at value
      split at value <;> linarith
    refine ⟨d.significand, d.exponent, magnitude, ?_⟩
    have bits : (d.significand : ℚ) < 2 ^ (53 : ℤ) := by exact_mod_cast d.significand_lt
    have lt : (2 : ℚ) ^ (n.log2 : ℤ) < 2 ^ (53 + d.exponent) := by
      rw [zpow_add₀ two_ne_zero]
      calc (2 : ℚ) ^ (n.log2 : ℤ) ≤ n := (log2_bounds nonzero).1
        _ = d.significand * 2 ^ d.exponent := magnitude
        _ < 2 ^ (53 : ℤ) * 2 ^ d.exponent :=
            mul_lt_mul_of_pos_right bits (zpow_pos two_pos _)
    have := (zpow_lt_zpow_iff_right₀ one_lt_two).mp lt
    omega
  · exact ⟨n, 0, by rw [zpow_zero, mul_one], by omega⟩

/-- It is written with a significand of all fifty-three bits. -/
theorem parts (h : Represented n) (nonzero : n ≠ 0) (lt : n < 2 ^ 64) :
    ∃ m, IsNormal m (n.log2 - 52) ∧ (n : ℚ) = m * 2 ^ (n.log2 - 52 : ℤ) := by
  obtain ⟨s, x, scaled, le⟩ := h.scaled nonzero
  have number : (n : ℚ) = (s * 2 ^ (x - (n.log2 - 52)).toNat : Nat) * 2 ^ (n.log2 - 52 : ℤ) := by
    rw [scaled, two_zpow_of_le le]
    push_cast
    ring
  refine ⟨_, ?_, number⟩
  generalize s * 2 ^ (x - (n.log2 - 52)).toNat = m at number
  obtain ⟨low, high⟩ := log2_bounds nonzero
  have log2 := (Nat.log2_lt nonzero).mpr lt
  obtain ⟨e, he⟩ : ∃ e : ℤ, e = n.log2 - 52 := ⟨_, rfl⟩
  have unit : (0 : ℚ) < 2 ^ e := zpow_pos two_pos _
  rw [← he] at number ⊢
  rw [number, show (n.log2 : ℤ) = 52 + e by omega, zpow_add₀ two_ne_zero] at low
  rw [number, show (n.log2 + 1 : ℤ) = 53 + e by omega, zpow_add₀ two_ne_zero] at high
  have least := le_of_mul_le_mul_right low unit
  have greatest := lt_of_mul_lt_mul_right high unit.le
  exact ⟨by exact_mod_cast least, by exact_mod_cast greatest, by omega, by omega⟩

variable {w : Word}

theorem ofNat_value (h : Represented w.toNat) :
    (ofNat w).IsFinite ∧ (ofNat w).value = w.toNat := by
  by_cases zero : w.toNat = 0
  · obtain rfl : w = 0 := BitVec.eq_of_toNat_eq zero
    have converted : ofNat 0 = Double.zero := by decide
    have significand : Double.zero.significand = 0 := by decide
    rw [converted, value, significand]
    exact ⟨by decide, by simp⟩
  · obtain ⟨m, normal, number⟩ := h.parts zero w.isLt
    rw [ofNat_eq_ofParts normal number, number]
    exact ⟨isFinite_ofParts normal, value_ofParts normal⟩

/-- Twice the double of half a word with the top bit set is the double of the word. -/
theorem add_self_half (h : Represented w.toNat) (large : 2 ^ 63 ≤ w.toNat) :
    let half := ofInt ((w >>> 1) ||| (w &&& 1))
    add half half = ofNat w := by
  intro half
  have nonzero : w.toNat ≠ 0 := by omega
  obtain ⟨m, normal, number⟩ := h.parts nonzero w.isLt
  have log2 : w.toNat.log2 = 63 := (Nat.log2_eq_iff nonzero).mpr ⟨large, w.isLt⟩
  have exponent : ((w.toNat.log2 : ℤ) - 52) = 10 + 1 := by omega
  rw [exponent] at normal number
  have scaled : w.toNat = m * 2 ^ 11 := by exact_mod_cast number
  have even : w.toNat % 2 = 0 := by omega
  have halved : ((w >>> 1) ||| (w &&& 1)).toNat = m * 2 ^ 10 := by
    rw [BitVec.toNat_or, BitVec.toNat_ushiftRight, BitVec.toNat_and,
      show BitVec.toNat (1 : Word) = 1 from rfl, Nat.and_one_is_mod, even, Nat.or_zero,
      Nat.shiftRight_eq_div_pow]
    omega
  have lower : IsNormal m 10 := ⟨normal.least, normal.greatest, by decide, by decide⟩
  have greatest := lower.greatest
  have converted : half = ofParts lower :=
    (ofInt_eq_ofNat (by omega)).trans (ofNat_eq_ofParts lower (by rw [halved]; push_cast; rfl))
  rw [converted, add_self_ofParts lower normal, ofNat_eq_ofParts normal number]

end Represented
end Double
end LiveC
