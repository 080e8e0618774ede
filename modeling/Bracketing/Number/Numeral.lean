import Bracketing.Number.Decimal

/-!
# Numerals

How digits are read: natural numbers in bases up to sixteen, and decimal numbers with a sign, a point and an exponent.
-/

namespace Bracketing.Number.Numeral

/-- The value of a digit in bases up to sixteen. -/
def digit? (c : Char) : Option Nat :=
  if '0' ≤ c && c ≤ '9' then some (c.toNat - '0'.toNat)
  else if 'a' ≤ c && c ≤ 'f' then some (c.toNat - 'a'.toNat + 10)
  else if 'A' ≤ c && c ≤ 'F' then some (c.toNat - 'A'.toNat + 10)
  else none

/-- The number that digits write in a base, after those read so far. -/
def digitsFrom (base : Nat) : Nat → List Char → Option Nat
  | n, [] => some n
  | n, c :: rest =>
    match digit? c with
    | some d => if d < base then digitsFrom base (n * base + d) rest else none
    | none => none

/-- The number that digits write in a base; there has to be a digit. -/
def natural? (base : Nat) (cs : List Char) : Option Nat :=
  if cs.isEmpty then none else digitsFrom base 0 cs

/-- The characters without a sign in front, and whether that is a minus sign. -/
def splitSign : List Char → Bool × List Char
  | '+' :: cs => (false, cs)
  | '-' :: cs => (true, cs)
  | cs => (false, cs)

/-- The number of digits with a sign in front. -/
def integer? (base : Nat) (cs : List Char) : Option Int :=
  let (negative, digits) := splitSign cs
  (natural? base digits).map fun n => if negative then -(n : Int) else n

/-- The mark before an exponent. -/
def isExponentMark (c : Char) : Bool := c = 'e' || c = 'E'

/-- A decimal number with or without a sign, a point and an exponent, if it is finite. -/
def decimal? (cs : List Char) : Option Double :=
  let (negative, cs) := splitSign cs
  let number := cs.takeWhile fun c => !isExponentMark c
  let whole := number.takeWhile (· ≠ '.')
  let part := (number.dropWhile (· ≠ '.')).drop 1
  let exponent := match cs.dropWhile fun c => !isExponentMark c with
    | [] => some 0
    | _ :: digits => integer? 10 digits
  match natural? 10 (whole ++ part), exponent with
  | some mantissa, some e =>
    let x := Double.ofDecimal negative mantissa (e - part.length)
    if x.isFinite then some x else none
  | _, _ => none

end Bracketing.Number.Numeral
