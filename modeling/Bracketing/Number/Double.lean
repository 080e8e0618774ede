/-!
# Binary floating-point numbers

A double is the 64-bit word of a binary floating-point number: a sign, eleven bits of exponent and fifty-two bits of
fraction. Everything here is exact integer arithmetic on that word: the number it stands for (`significand` times a
power of two), the nearest double of a quotient (`ofRatio`, ties to the even significand), of an integer and of a
decimal, and the comparison in which the two zeros are equal and a value that is not a number equals nothing.
-/

namespace Bracketing.Number

/-- The powers of two. -/
def twoTo (n : Nat) : Nat := Nat.pow 2 n

/-- The powers of ten. -/
def tenTo (n : Nat) : Nat := Nat.pow 10 n

/-- A floating-point number, held as its 64-bit word. -/
structure Double where
  bits : UInt64
  deriving DecidableEq, Inhabited, Repr

namespace Double

/-- The sign bit is set. -/
def negative (x : Double) : Bool := twoTo 63 ≤ x.bits.toNat

/-- The eleven exponent bits. -/
def exponentField (x : Double) : Nat := x.bits.toNat / twoTo 52 % 2048

/-- The fifty-two fraction bits. -/
def fraction (x : Double) : Nat := x.bits.toNat % twoTo 52

/-- The word stands for no number. -/
def isNaN (x : Double) : Bool := x.exponentField = 2047 && x.fraction ≠ 0

/-- The word stands for an infinity. -/
def isInfinite (x : Double) : Bool := x.exponentField = 2047 && x.fraction = 0

/-- The word stands for a number. -/
def isFinite (x : Double) : Bool := x.exponentField ≠ 2047

/-- A zero of either sign. -/
def isZero (x : Double) : Bool := x.exponentField = 0 && x.fraction = 0

/-- A finite double has the absolute value `significand * 2 ^ exponent`. -/
def significand (x : Double) : Nat := if x.exponentField = 0 then x.fraction else x.fraction + twoTo 52

/-- The power of two that scales the significand. -/
def exponent (x : Double) : Int := (max x.exponentField 1 : Nat) - 1075

/-- The double with the given sign and the given remaining bits. -/
def ofMagnitude (negative : Bool) (magnitude : Nat) : Double :=
  ⟨UInt64.ofNat (if negative then twoTo 63 + magnitude else magnitude)⟩

/-- The zero of a sign. -/
def zero (negative : Bool) : Double := ofMagnitude negative 0

/-- The infinity of a sign. -/
def infinity (negative : Bool) : Double := ofMagnitude negative (2047 * twoTo 52)

/-- The integer nearest to `num / den`, the even one of two. -/
def roundQuotient (num den : Nat) : Nat :=
  let q := num / den
  let r := num % den
  if 2 * r < den then q
  else if den < 2 * r then q + 1
  else if q % 2 = 0 then q else q + 1

/-- The numerator and denominator of `num / den / 2 ^ e`. -/
def scaleDown (num den : Nat) (e : Int) : Nat × Nat :=
  if 0 ≤ e then (num, den * twoTo e.toNat) else (num * twoTo (-e).toNat, den)

/-- The exponent of the last binary place that a double keeps of `num / den`. -/
def lastPlace (num den : Nat) : Int :=
  let guess := max ((Nat.log2 num : Int) - (Nat.log2 den : Int) - 52) (-1074)
  let (n, d) := scaleDown num den guess
  if n / d < twoTo 52 then max (guess - 1) (-1074) else guess

/-- The double nearest to `num / den` with the given sign, ties to the even significand; too large a quotient is
infinite. -/
def ofRatio (negative : Bool) (num den : Nat) : Double :=
  if num = 0 then zero negative
  else
    let e := lastPlace num den
    let (n, d) := scaleDown num den e
    ofMagnitude negative (min ((e + 1074).toNat * twoTo 52 + roundQuotient n d) (2047 * twoTo 52))

/-- The double nearest to an integer. -/
def ofInt (i : Int) : Double := ofRatio (i < 0) i.natAbs 1

/-- The double nearest to `mantissa * 10 ^ e`; exponents beyond every double are cut off first. -/
def ofDecimal (negative : Bool) (mantissa : Nat) (e : Int) : Double :=
  let size : Int := (Nat.toDigits 10 mantissa).length + e
  if mantissa = 0 || size < -400 then zero negative
  else if 400 < size then infinity negative
  else if 0 ≤ e then ofRatio negative (mantissa * tenTo e.toNat) 1
  else ofRatio negative mantissa (tenTo (-e).toNat)

/-- The two doubles are the same number: zeros of both signs are equal, and a value that is not a number differs from
every value. -/
def same (x y : Double) : Bool :=
  !x.isNaN && !y.isNaN && (x == y || (x.isZero && y.isZero))

/-- The integer that a double is, if it is one. -/
def toInt? (x : Double) : Option Int :=
  let sign : Int := if x.negative then -1 else 1
  if !x.isFinite then none
  else if 0 ≤ x.exponent then some (sign * (x.significand * twoTo x.exponent.toNat : Nat))
  else
    let unit := twoTo (-x.exponent).toNat
    if x.significand % unit = 0 then some (sign * (x.significand / unit : Nat)) else none

end Double

end Bracketing.Number
