import LiveC.Double

/-!
How a double is written. Its shortest decimal has the fewest digits that read back to it: the
nearest such decimal if there are several, and the larger one on an exact tie. It is written either
positionally whatever its size, or in the debugging form that keeps a point and switches to an
exponent at both ends. Or a double is written with a fixed number of places: the exact binary value
is rounded to the nearest multiple of the last place, a half to the even neighbour.
-/

namespace LiveC

/-! ### Shortest decimals -/

/-- The decimal `digits * 10 ^ exponent`. -/
structure Decimal where
  digits : Nat
  exponent : Int
  deriving DecidableEq, Repr

namespace Decimal

/-- The power of ten. -/
def tens (n : Nat) : Nat := Nat.pow 10 n

/-- Compares `a * 10 ^ i` with `n * 2 ^ j`, exactly. -/
def compareScaled (a : Nat) (i : Int) (n : Nat) (j : Int) : Ordering :=
  compare ((a * tens i.toNat) <<< (-j).toNat) ((n * tens (-i).toNat) <<< j.toNat)

/-- Whether the gap to the next smaller magnitude is half the gap to the next larger. -/
def narrowBelow (x : Double) : Bool := x.fractionBits == 0 && x.exponentBits > 1

/-- Whether a decimal lies among the reals that round to the magnitude of `x`: halfway
to either neighbour, ends included when the significand is even. -/
def readsBack (x : Double) (d : Decimal) : Bool :=
  let lo := if narrowBelow x then 4 * x.significand - 1 else 4 * x.significand - 2
  let hi := 4 * x.significand + 2
  let closed := x.significand % 2 == 0
  let cl := compareScaled d.digits d.exponent lo (x.exponent - 2)
  let ch := compareScaled d.digits d.exponent hi (x.exponent - 2)
  (cl == .gt || (closed && cl == .eq)) && (ch == .lt || (closed && ch == .eq))

/-- The least `k` such that the magnitude of a nonzero `x` is below `10 ^ k`. -/
def magnitude (x : Double) : Int :=
  let binary : Int := (x.significand.log2 : Int) + x.exponent
  let start := Int.fdiv (binary * 30103) 100000 - 1
  let above (k : Int) : Bool := compareScaled 1 k x.significand x.exponent == .gt
  ([start, start + 1, start + 2].find? above).getD (start + 3)

/-- The neighbours of `x` on the grid of multiples of `10 ^ g`, tried for reading back. -/
def onGrid? (x : Double) (g : Int) : Option Decimal :=
  let num := (x.significand * tens (-g).toNat) <<< x.exponent.toNat
  let den := tens g.toNat <<< (-x.exponent).toNat
  let below : Decimal := ⟨num / den, g⟩
  let above : Decimal := ⟨num / den + 1, g⟩
  match readsBack x below, readsBack x above with
  | false, false => none
  | true, false => some below
  | false, true => some above
  | true, true => some (if 2 * (num % den) < den then below else above)

/-- Moves trailing zeros of the digits into the exponent. -/
def normalize (d : Decimal) : Decimal :=
  if _h : d.digits % 10 = 0 ∧ d.digits ≠ 0 then normalize ⟨d.digits / 10, d.exponent + 1⟩ else d
termination_by d.digits
decreasing_by exact Nat.div_lt_self (Nat.pos_of_ne_zero _h.2) (by decide)

/-- The exact decimal value of `x`. -/
def exact (x : Double) : Decimal :=
  if 0 ≤ x.exponent then ⟨x.significand <<< x.exponent.toNat, 0⟩
  else ⟨x.significand * Nat.pow 5 (-x.exponent).toNat, x.exponent⟩

/-- The shortest decimal of the magnitude of a finite value. -/
def shortest (x : Double) : Decimal :=
  if x.isZero then ⟨0, 0⟩
  else
    let k := magnitude x
    let found := (List.range 17).findSome? fun (n : Nat) => onGrid? x (k - ((n : Int) + 1))
    normalize (found.getD (exact x))

end Decimal

/-! ### Notations -/

namespace Decimal

/-- The exponent of the leading digit. -/
def leadingExponent (d : Decimal) : Int := d.exponent + (toString d.digits).length - 1

/-- Positional notation, with a zero before a leading point and no point after an integer. -/
def positional (d : Decimal) : String :=
  let ds := (toString d.digits).toList
  let point := (ds.length : Int) + d.exponent
  if 0 ≤ d.exponent then String.ofList (ds ++ List.replicate d.exponent.toNat '0')
  else if 0 < point then
    String.ofList (ds.take point.toNat ++ '.' :: ds.drop point.toNat)
  else String.ofList ('0' :: '.' :: List.replicate (-point).toNat '0' ++ ds)

/-- One digit before the point, and the exponent without a plus sign or padding. -/
def scientific (d : Decimal) : String :=
  let mantissa := match (toString d.digits).toList with
    | [] => ""
    | [c] => String.singleton c
    | c :: cs => String.ofList (c :: '.' :: cs)
  mantissa ++ "e" ++ toString d.leadingExponent

end Decimal

namespace Double

/-- Writes the sign and the special values, and hands the magnitude's shortest decimal on. -/
def renderWith (layout : Decimal → String) (d : Double) : String :=
  if d.isNaN then "NaN"
  else
    let magnitude := if d.isInfinite then "inf" else layout (Decimal.shortest d)
    if d.isNegative then "-" ++ magnitude else magnitude

/-- The plain form: always positional. -/
def render (d : Double) : String := d.renderWith Decimal.positional

/-- The debugging form: positional with at least one decimal place from `10 ^ -4` up to
`10 ^ 16`, with an exponent outside. -/
def renderDebug (d : Double) : String :=
  d.renderWith fun dec =>
    if dec.digits = 0 then "0.0"
    else if dec.leadingExponent < -4 || 16 ≤ dec.leadingExponent then dec.scientific
    else if 0 ≤ dec.exponent then dec.positional ++ ".0"
    else dec.positional

end Double

/-! ### A fixed number of places -/

/-- The integer nearest to a quotient, the even one if two are equally near. -/
def roundDiv (num den : Nat) : Nat :=
  let q := num / den
  let twice := 2 * (num % den)
  if twice < den || (twice == den && q % 2 == 0) then q else q + 1

/-- A rounded quotient is within half a unit. -/
theorem roundDiv_near {num den : Nat} (h : 0 < den) :
    2 * (roundDiv num den * den) ≤ 2 * num + den ∧
      2 * num ≤ 2 * (roundDiv num den * den) + den := by
  have split := Nat.div_add_mod num den
  have small := Nat.mod_lt num h
  have comm := Nat.mul_comm den (num / den)
  unfold roundDiv
  dsimp only
  split
  · next near =>
    have : 2 * (num % den) ≤ den := by
      simp only [Bool.or_eq_true, Bool.and_eq_true, decide_eq_true_eq, beq_iff_eq] at near
      omega
    omega
  · next far =>
    have : den ≤ 2 * (num % den) := by
      simp only [Bool.or_eq_true, Bool.and_eq_true, decide_eq_true_eq, beq_iff_eq] at far
      omega
    rw [Nat.add_mul, Nat.one_mul]
    omega

namespace Double

/-- The magnitude of a finite value in units of `10 ^ -places`. -/
def scaled (d : Double) (places : Nat) : Nat :=
  roundDiv ((d.significand * Decimal.tens places) <<< d.exponent.toNat) (1 <<< (-d.exponent).toNat)

/-- A value with a number of places behind the point. The sign of a zero is kept. -/
def renderFixed (d : Double) (places : Nat) : String :=
  let magnitude :=
    if d.isNaN then "nan"
    else if d.isInfinite then "inf"
    else
      let digits := toString (d.scaled places)
      let padded := (List.replicate (places + 1 - digits.length) '0') ++ digits.toList
      let whole := padded.take (padded.length - places)
      let fraction := padded.drop (padded.length - places)
      String.ofList (if places = 0 then whole else whole ++ '.' :: fraction)
  if d.isNegative then "-" ++ magnitude else magnitude

end Double

end LiveC
