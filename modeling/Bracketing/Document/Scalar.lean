import Bracketing.Document.Datum
import Bracketing.Number.Numeral

/-!
# Scalars without quotes

What a scalar that is not in quotes stands for: nothing, a truth value, an infinity, an integer in one of four bases, a
number with a decimal point, or else the text itself. A number that does not fit its type is a text.
-/

namespace Bracketing.Document.Scalar

open Bracketing.Number

/-- An integer with its sign, if it fits its word. -/
def integer? (negative : Bool) (base : Nat) (cs : List Char) : Option Datum :=
  match Numeral.natural? base cs with
  | some n =>
    if negative then if n ≤ twoTo 63 then some (.signed (Int64.ofInt (-n))) else none
    else if n < twoTo 64 then some (.unsigned (UInt64.ofNat n)) else none
  | none => none

/-- A number with a decimal point and perhaps an exponent, if it is finite. -/
def float? (negative : Bool) (cs : List Char) : Option Datum :=
  (Numeral.decimal? (if negative then '-' :: cs else cs)).map .float

/-- The number that a scalar writes, if it writes one. Underscores between digits do not count, and a leading zero
without a point marks an octal number. -/
def number? (cs : List Char) : Option Datum :=
  if cs.head? = some '_' || 1 < cs.count '.' then none
  else
    let unsigned := match cs with
      | '+' :: '-' :: rest | '+' :: rest | '-' :: rest => rest
      | rest => rest
    let negative := cs.head? = some '-'
    match unsigned.filter (· ≠ '_') with
    | '0' :: 'x' :: digits => integer? negative 16 digits
    | '0' :: 'o' :: digits => integer? negative 8 digits
    | '0' :: 'b' :: digits => integer? negative 2 digits
    | '0' :: c :: digits =>
      if cs.contains '.' then float? negative ('0' :: c :: digits) else integer? negative 8 ('0' :: c :: digits)
    | digits => if cs.contains '.' then float? negative digits else integer? negative 10 digits

/-- What a scalar without quotes stands for. -/
def resolve (s : String) : Datum :=
  if ["", "~", "null", "Null", "NULL"].contains s then .null
  else if ["true", "True", "TRUE"].contains s then .bool true
  else if ["false", "False", "FALSE"].contains s then .bool false
  else if [".inf", ".Inf", ".INF"].contains s then .float (Double.infinity false)
  else if ["-.inf", "-.Inf", "-.INF"].contains s then .float (Double.infinity true)
  else if [".nan", ".NaN", ".NAN"].contains s then .float ⟨0x7FF8000000000001⟩
  else (number? s.toList).getD (.str s)

end Bracketing.Document.Scalar
