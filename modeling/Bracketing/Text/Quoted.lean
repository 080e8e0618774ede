import Bracketing.Text.Printable

/-!
# Quoted text

A text between double quotes on one line: a quote and a backslash are escaped, printable characters stand for
themselves, the seven classical control characters have letters of their own, and every other character is written by
its code point in hexadecimal, two, four or eight digits wide.
-/

namespace Bracketing.Text

/-- The lower-case hexadecimal digits of `n`, padded on the left with zeros to at least `width` digits. -/
def hexDigits (width n : Nat) : String :=
  let digits := Nat.toDigits 16 n
  String.ofList (List.replicate (width - digits.length) '0' ++ digits)

/-- The escape letter of a control character that has one. -/
def controlLetter? : Nat → Option Char
  | 7 => some 'a'
  | 8 => some 'b'
  | 9 => some 't'
  | 10 => some 'n'
  | 11 => some 'v'
  | 12 => some 'f'
  | 13 => some 'r'
  | _ => none

/-- A character that is not shown as it is, by its letter or by its code point. -/
def escapeHidden (c : Char) : String :=
  match controlLetter? c.toNat with
  | some letter => String.ofList ['\\', letter]
  | none =>
    if c.toNat < 0x80 then "\\x" ++ hexDigits 2 c.toNat
    else if c.toNat < 0x10000 then "\\u" ++ hexDigits 4 c.toNat
    else "\\U" ++ hexDigits 8 c.toNat

/-- One character inside a text quoted with the mark `mark`. -/
def escapeChar (mark c : Char) : String :=
  if c = mark || c = '\\' then String.ofList ['\\', c]
  else if isPrintable c then String.singleton c
  else escapeHidden c

/-- The text between double quotes. -/
def quote (s : String) : String :=
  "\"" ++ String.join (s.toList.map (escapeChar '"')) ++ "\""

/-- A single character between single quotes. -/
def quoteChar (c : Char) : String :=
  "'" ++ escapeChar '\'' c ++ "'"

end Bracketing.Text
