import Bracketing.Document.Datum
import Bracketing.Number.Numeral

/-!
# Scalars of configuration files

What a scalar without quotes stands for in a configuration file. Other than in documents a number may have an exponent
without a point, and digits that are no octal number are read as a decimal one.
-/

namespace Bracketing.Config.Yaml

open Bracketing.Document Bracketing.Number

/-- The base of a number by what it begins with, and its digits. -/
def radix : List Char → Nat × List Char
  | '0' :: c :: digits =>
    if c = 'x' || c = 'X' then (16, digits)
    else if c = 'b' || c = 'B' then (2, digits)
    else if c = 'o' || c = 'O' then (8, digits)
    else (8, c :: digits)
  | digits => (10, digits)

/-- An integer with a sign in front, if it fits a word. -/
def integer? (cs : List Char) : Option Datum :=
  let (negative, unsigned) := Numeral.splitSign cs
  let (base, digits) := radix unsigned
  match Numeral.natural? base digits with
  | none => none
  | some n =>
    if negative then if n ≤ twoTo 63 then some (.signed (Int64.ofInt (-n))) else none
    else if n < twoTo 63 then some (.signed (Int64.ofNat n))
    else if n < twoTo 64 && cs.head? ≠ some '+' then some (.unsigned (UInt64.ofNat n))
    else none

/-- The number that a scalar writes, if it writes one. Underscores in it do not count. -/
def number? (cs : List Char) : Option Datum :=
  match cs with
  | '.' :: _ => (Numeral.decimal? cs).map .float
  | c :: _ =>
    if c.isDigit || c = '+' || c = '-' then
      let digits := cs.filter (· ≠ '_')
      (integer? digits).or ((Numeral.decimal? digits).map .float)
    else none
  | [] => none

/-- What a scalar without quotes stands for. -/
def resolve (s : String) : Datum :=
  if ["", "~", "null", "Null", "NULL"].contains s then .null
  else if ["true", "True", "TRUE"].contains s then .bool true
  else if ["false", "False", "FALSE"].contains s then .bool false
  else if [".inf", ".Inf", ".INF", "+.inf", "+.Inf", "+.INF"].contains s then .float (Double.infinity false)
  else if ["-.inf", "-.Inf", "-.INF"].contains s then .float (Double.infinity true)
  else if [".nan", ".NaN", ".NAN"].contains s then .float ⟨0x7FF8000000000001⟩
  else (number? s.toList).getD (.str s)

end Bracketing.Config.Yaml
