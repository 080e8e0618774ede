import Bracketing.Document.Datum
import Bracketing.Number.Numeral

/-!
# Scalars of TOML files

Strings on one line or on several, with or without escapes, and words: truth values, integers in four bases,
floating-point numbers, and dates and times, which are kept as texts.
-/

namespace Bracketing.Config.Toml

open Bracketing.Document Bracketing.Number

/-- What a reader gives: a value and the rest of the file, or nothing if it is malformed. -/
abbrev Result (α : Type) := Option (α × List Char)

/-- A blank within a line. -/
def isBlank (c : Char) : Bool := c = ' ' || c = '\t'

/-- The text without the blanks in front. -/
def skipBlanks (cs : List Char) : List Char := cs.dropWhile isBlank

/-- A character that must not stand as it is in a string or comment. -/
def isControl (c : Char) : Bool := (c.toNat < 0x20 && c ≠ '\t') || c.toNat = 0x7F

/-! ## Strings -/

/-- The character of an escape by a code of a width, and what follows it. -/
def coded? (width : Nat) (cs : List Char) : Result Char :=
  match Numeral.natural? 16 (cs.take width) with
  | some n => if width ≤ cs.length && n.isValidChar then some (Char.ofNat n, cs.drop width) else none
  | none => none

/-- The character of the escape behind a backslash, and what follows it. -/
def escape? : List Char → Result Char
  | 'b' :: rest => some ('\x08', rest)
  | 't' :: rest => some ('\t', rest)
  | 'n' :: rest => some ('\n', rest)
  | 'f' :: rest => some ('\x0c', rest)
  | 'r' :: rest => some ('\r', rest)
  | 'e' :: rest => some ('\x1b', rest)
  | '"' :: rest => some ('"', rest)
  | '\\' :: rest => some ('\\', rest)
  | 'u' :: rest => coded? 4 rest
  | 'U' :: rest => coded? 8 rest
  | _ => none

/-- The rest of a string on one line, after the characters read, of which the last comes first. -/
def lineString? (quote : Char) : Nat → List Char → List Char → Result String
  | 0, _, _ => none
  | _, _, [] => none
  | fuel + 1, read, c :: rest =>
    if c = quote then some (String.ofList read.reverse, rest)
    else if c = '\\' && quote = '"' then
      match escape? rest with
      | some (d, rest) => lineString? quote fuel (d :: read) rest
      | none => none
    else if isControl c then none
    else lineString? quote fuel (c :: read) rest

/-- The rest of a string on several lines, after the characters read, of which the last comes first. Up to two quotes
may stand before the closing ones. -/
def linesString? (quote : Char) : Nat → List Char → List Char → Result String
  | 0, _, _ => none
  | _, _, [] => none
  | fuel + 1, read, c :: rest =>
    let quotes := ((c :: rest).takeWhile (· = quote)).length
    if 3 ≤ quotes then
      let inner := List.replicate (min (quotes - 3) 2) quote
      some (String.ofList (read.reverse ++ inner), (c :: rest).drop (3 + inner.length))
    else if c = '\\' && quote = '"' then
      match skipBlanks rest with
      | '\n' :: more | '\r' :: '\n' :: more => linesString? quote fuel read (more.dropWhile Char.isWhitespace)
      | _ =>
        match escape? rest with
        | some (d, rest) => linesString? quote fuel (d :: read) rest
        | none => none
    else if c = '\n' || (c = '\r' && rest.head? = some '\n') || !isControl c then
      linesString? quote fuel (c :: read) rest
    else none

/-- A string with its quotes, and what follows it. -/
def string? (cs : List Char) : Result String :=
  match cs with
  | [] => none
  | quote :: rest =>
    if [quote, quote].isPrefixOf rest then
      let body := match rest.drop 2 with
        | '\n' :: body | '\r' :: '\n' :: body => body
        | body => body
      linesString? quote (body.length + 1) [] body
    else lineString? quote (rest.length + 1) [] rest

/-! ## Words -/

/-- A character that may be part of a word. -/
def isWordPart (c : Char) : Bool := c.isAlphanum || c = '_' || c = '-' || c = '+' || c = '.' || c = ':'

/-- Underscores stand only between digits. -/
def separatesDigits : List Char → Bool
  | a :: '_' :: b :: rest => a.isAlphanum && b.isAlphanum && separatesDigits (b :: rest)
  | '_' :: _ => false
  | [_, '_'] => false
  | _ :: rest => separatesDigits rest
  | [] => true

/-- An integer, if it fits a word. -/
def integer? (cs : List Char) : Option Datum :=
  let (negative, digits) := Numeral.splitSign cs
  let plain := digits.filter (· ≠ '_')
  let n? := match plain with
    | '0' :: 'x' :: ds => if cs = digits then Numeral.natural? 16 ds else none
    | '0' :: 'o' :: ds => if cs = digits then Numeral.natural? 8 ds else none
    | '0' :: 'b' :: ds => if cs = digits then Numeral.natural? 2 ds else none
    | '0' :: _ :: _ => none
    | ds => Numeral.natural? 10 ds
  match n? with
  | some n =>
    if !separatesDigits digits then none
    else if negative then if n ≤ twoTo 63 then some (.signed (Int64.ofInt (-n))) else none
    else if n < twoTo 63 then some (.signed (Int64.ofNat n)) else none
  | none => none

/-- A floating-point number: digits on both sides of a point, or an exponent, or both. -/
def float? (cs : List Char) : Option Datum :=
  let (negative, digits) := Numeral.splitSign cs
  if digits = "inf".toList then some (.float (Double.infinity negative))
  else if digits = "nan".toList then some (.float ⟨0x7FF8000000000001⟩)
  else
    let mantissa := digits.takeWhile fun c => !Numeral.isExponentMark c
    let whole := mantissa.takeWhile (· ≠ '.')
    let part := mantissa.drop whole.length
    let wellFormed := separatesDigits digits && whole.head?.any Char.isDigit &&
      (whole.length = 1 || whole.head? ≠ some '0') && (part.isEmpty || part[1]?.any Char.isDigit)
    if wellFormed then (Numeral.decimal? (cs.filter (· ≠ '_'))).map .float else none

/-- The word has the shape of a date or a time. -/
def isMoment (cs : List Char) : Bool :=
  let isDate := cs[4]? = some '-' && cs[7]? = some '-' && 10 ≤ cs.length
  let isTime := cs[2]? = some ':' && cs[5]? = some ':' && 8 ≤ cs.length
  cs.head?.any Char.isDigit && (isDate || isTime)

/-- What a word stands for. -/
def word? (cs : List Char) : Option Datum :=
  if cs = "true".toList then some (.bool true)
  else if cs = "false".toList then some (.bool false)
  else if isMoment cs then some (.str (String.ofList cs))
  else (integer? cs).or (float? cs)

end Bracketing.Config.Toml
