import LiveC.Double

/-!
Reading decimals: a mantissa of digits with at most one point, then an optional
exponent. The value is the nearest double, and a magnitude too large is infinite.
-/

namespace LiveC

namespace Decimal

/-- The nearest double to `mantissa * 10 ^ exponent`. Exponents far outside the range of
a double are settled without computing the power. -/
def toDouble (mantissa : Nat) (exponent : Int) : Double :=
  let width : Int := (toString mantissa).length
  if mantissa = 0 || exponent + width < -400 then .zero
  else if 400 < exponent + width then .infinity
  else .ofFloat (Float.ofScientific mantissa (exponent < 0) exponent.natAbs)

/-- The number that decimal digits denote. -/
def ofDigits (ds : List Char) : Nat :=
  ds.foldl (fun n c => 10 * n + (c.toNat - '0'.toNat)) 0

/-- Reads the digits of an exponent after its optional sign. -/
def exponent? (cs : List Char) : Option Int :=
  let (sign, ds) : Int × List Char := match cs with
    | '-' :: r => (-1, r)
    | '+' :: r => (1, r)
    | r => (1, r)
  if ds.isEmpty || !ds.all Char.isDigit then none else some (sign * ofDigits ds)

/-- Reads an unsigned decimal such as `5.`, `.5` or `1.e5`. -/
def unsigned? (cs : List Char) : Option Double :=
  let whole := cs.takeWhile Char.isDigit
  let afterWhole := cs.dropWhile Char.isDigit
  let (places, rest) := match afterWhole with
    | '.' :: r => (r.takeWhile Char.isDigit, r.dropWhile Char.isDigit)
    | r => ([], r)
  if whole.isEmpty && places.isEmpty then none
  else
    let value (e : Int) := toDouble (ofDigits (whole ++ places)) (e - (places.length : Int))
    match rest with
    | [] => some (value 0)
    | c :: r => if c == 'e' || c == 'E' then (exponent? r).map value else none

/-- Reads a decimal with an optional sign, or a name of infinity or of a NaN in any case. -/
def signed? (cs : List Char) : Option Double :=
  let magnitude (r : List Char) : Option Double :=
    match String.ofList (r.map Char.toLower) with
    | "inf" | "infinity" => some .infinity
    | "nan" => some .quietNaN
    | _ => unsigned? r
  match cs with
  | '-' :: r => (magnitude r).map Double.neg
  | '+' :: r => magnitude r
  | r => magnitude r

end Decimal

end LiveC
