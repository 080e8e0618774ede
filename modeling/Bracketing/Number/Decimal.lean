import Bracketing.Number.Double

/-!
# Shortest decimal text of a double

`shortest` finds the decimal with the fewest digits that lies in the interval of reals rounding to a given double, and
of two such decimals the nearer one. `Double.text` lays it out: positional for decimal exponents from `-4` to `5`, and
in scientific notation with a signed exponent of at least two digits otherwise.
-/

namespace Bracketing.Number

/-- The decimal `mantissa * 10 ^ exponent`. -/
structure Decimal where
  mantissa : Nat
  exponent : Int
  deriving DecidableEq, Inhabited, Repr

namespace Decimal

/-- A decimal as a fraction. -/
def toRatio (x : Decimal) : Nat × Nat :=
  if 0 ≤ x.exponent then (x.mantissa * tenTo x.exponent.toNat, 1) else (x.mantissa, tenTo (-x.exponent).toNat)

/-- The digits of the mantissa without trailing zeros, most significant first. -/
def digits (x : Decimal) : List Char :=
  ((Nat.toDigits 10 x.mantissa).reverse.dropWhile (· = '0')).reverse

/-- The exponent of the first digit of the decimal. -/
def leading (x : Decimal) : Int := (Nat.toDigits 10 x.mantissa).length - 1 + x.exponent

end Decimal

/-- The reals that round to a double: from `low` to `high`, in units of `2 ^ unit`, with the value itself at `mid`; the
ends belong to it when `closed`. -/
structure Rounding where
  low : Nat
  mid : Nat
  high : Nat
  unit : Int
  closed : Bool
  deriving Repr

namespace Rounding

/-- The interval of a finite double, in quarters of its last binary place. -/
def ofDouble (x : Double) : Rounding where
  low := if x.fraction = 0 && 1 < x.exponentField then 4 * x.significand - 1 else 4 * x.significand - 2
  mid := 4 * x.significand
  high := 4 * x.significand + 2
  unit := x.exponent - 2
  closed := x.significand % 2 = 0

/-- A number of units as a fraction. -/
def ratio (r : Rounding) (n : Nat) : Nat × Nat :=
  if 0 ≤ r.unit then (n * twoTo r.unit.toNat, 1) else (n, twoTo (-r.unit).toNat)

/-- The fraction `a` is below the fraction `b`. -/
def below (a b : Nat × Nat) : Bool := a.1 * b.2 < b.1 * a.2

/-- The decimal rounds to the double. -/
def admits (r : Rounding) (x : Decimal) : Bool :=
  let v := x.toRatio
  if r.closed then !below v (r.ratio r.low) && !below (r.ratio r.high) v
  else below (r.ratio r.low) v && below v (r.ratio r.high)

/-- The largest integer whose multiple of `10 ^ place` does not exceed the double. -/
def floorAt (r : Rounding) (place : Int) : Nat :=
  let (n, d) := r.ratio r.mid
  if 0 ≤ place then n / (d * tenTo place.toNat) else n * tenTo (-place).toNat / d

/-- The exponent of the first decimal digit of the double. -/
def leading (r : Rounding) : Int :=
  let (n, d) := r.ratio r.mid
  let guess := (((Nat.log2 n : Int) - (Nat.log2 d : Int) - 1) * 30103).fdiv 100000 - 1
  let fits (p : Int) : Bool := r.floorAt (p + 1) = 0
  if fits guess then guess
  else if fits (guess + 1) then guess + 1
  else if fits (guess + 2) then guess + 2
  else guess + 3

/-- The decimal with its last digit at `place` that rounds to the double, if one of the two around it does. -/
def candidate? (r : Rounding) (place : Int) : Option Decimal :=
  let down : Decimal := ⟨r.floorAt place, place⟩
  let up : Decimal := ⟨r.floorAt place + 1, place⟩
  match r.admits down, r.admits up with
  | false, false => none
  | true, false => some down
  | false, true => some up
  | true, true =>
    -- twice the double against the sum of the two neighbours
    let (n, d) := r.ratio (2 * r.mid)
    let middle : Decimal := ⟨2 * r.floorAt place + 1, place⟩
    if below (n, d) middle.toRatio then some down
    else if below middle.toRatio (n, d) then some up
    else if down.mantissa % 2 = 0 then some down else some up

/-- The first candidate among `count` places, going down from `place`. -/
def search (r : Rounding) : Nat → Int → Decimal
  | 0, place => ⟨r.floorAt place, place⟩
  | count + 1, place =>
    match r.candidate? place with
    | some x => x
    | none => r.search count (place - 1)

end Rounding

/-- The decimal with the fewest digits that rounds to a finite, nonzero double. -/
def shortest (x : Double) : Decimal :=
  let r := Rounding.ofDouble x
  r.search 17 r.leading

/-- An exponent with its sign and at least two digits. -/
def exponentText (e : Int) : String :=
  let digits := Nat.toDigits 10 e.natAbs
  (if e < 0 then "e-" else "e+") ++ String.ofList (List.replicate (2 - digits.length) '0' ++ digits)

/-- The digits with the point after the first one, and the exponent. -/
def scientific (digits : List Char) (e : Int) : String :=
  String.ofList (digits.take 1) ++ (if 1 < digits.length then "." ++ String.ofList (digits.drop 1) else "") ++
    exponentText e

/-- The digits with the point where the exponent `e` of the first one puts it. -/
def positional (digits : List Char) (e : Int) : String :=
  if e < 0 then "0." ++ String.ofList (List.replicate ((-e).toNat - 1) '0' ++ digits)
  else
    let whole := e.toNat + 1
    if digits.length ≤ whole then String.ofList (digits ++ List.replicate (whole - digits.length) '0')
    else String.ofList (digits.take whole) ++ "." ++ String.ofList (digits.drop whole)

/-- The text of a double: the fewest digits that read back, positional for decimal exponents from `-4` to `5`. -/
def Double.text (x : Double) : String :=
  if x.isNaN then "NaN"
  else
    let sign := if x.negative then "-" else ""
    if x.isInfinite then (if x.negative then "-Inf" else "+Inf")
    else if x.isZero then sign ++ "0"
    else
      let d := shortest x
      if d.leading < -4 || 6 ≤ d.leading then sign ++ scientific d.digits d.leading
      else sign ++ positional d.digits d.leading

end Bracketing.Number
