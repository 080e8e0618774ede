import Bracketing.Number.Numeral

/-!
# Reading JSON

`JsonValue.parse?` reads a text that holds one JSON value and nothing else. Numbers keep their spelling, so that the
reader of the value can choose what they become, and objects keep all their members in order.
-/

namespace Bracketing.Text

open Bracketing.Number

/-- A JSON value with its numbers as they are spelt. -/
inductive JsonValue where
  | null
  | bool (b : Bool)
  | number (spelling : String)
  | str (s : String)
  | arr (items : List JsonValue)
  | obj (members : List (String × JsonValue))
  deriving Inhabited, Repr

namespace JsonValue

/-- The text without the blanks in front. -/
def skipBlanks (cs : List Char) : List Char := cs.dropWhile fun c => c = ' ' || c = '\t' || c = '\n' || c = '\r'

/-! ## Strings -/

/-- The characters of code units: surrogates in pairs make one character, and what is no character is replaced. -/
def ofUnits : List Nat → List Char
  | [] => []
  | [u] => [unit u]
  | u :: v :: rest =>
    if 0xD800 ≤ u && u < 0xDC00 && 0xDC00 ≤ v && v < 0xE000 then
      unit (0x10000 + (u - 0xD800) * 0x400 + (v - 0xDC00)) :: ofUnits rest
    else unit u :: ofUnits (v :: rest)
where
  /-- The character of a code point. -/
  unit (n : Nat) : Char := if n.isValidChar then Char.ofNat n else '\uFFFD'

/-- The code unit of a one-letter escape. -/
def letter? : Char → Option Nat
  | '"' => some 34
  | '\\' => some 92
  | '/' => some 47
  | 'b' => some 8
  | 'f' => some 12
  | 'n' => some 10
  | 'r' => some 13
  | 't' => some 9
  | _ => none

/-- The rest of a string after the given code units, of which the last comes first, and what follows it. -/
def units? (read : List Nat) : List Char → Option (List Nat × List Char)
  | [] => none
  | '"' :: rest => some (read.reverse, rest)
  | '\\' :: 'u' :: a :: b :: c :: d :: rest =>
    match Numeral.natural? 16 [a, b, c, d] with
    | some u => units? (u :: read) rest
    | none => none
  | '\\' :: c :: rest =>
    match letter? c with
    | some u => units? (u :: read) rest
    | none => none
  | c :: rest => if c.toNat < 0x20 || c = '\\' then none else units? (c.toNat :: read) rest

/-- A string after its opening quote, and what follows it. -/
def string? (cs : List Char) : Option (String × List Char) :=
  (units? [] cs).map fun (units, rest) => (String.ofList (ofUnits units), rest)

/-! ## Numbers -/

/-- A character that may be part of a number. -/
def isNumberPart (c : Char) : Bool := c.isDigit || c = '-' || c = '+' || c = '.' || c = 'e' || c = 'E'

/-- The characters are digits, and there is one. -/
def isDigits (cs : List Char) : Bool := !cs.isEmpty && cs.all Char.isDigit

/-- The characters spell a number: no sign but a minus, no zero in front, and digits after a point or mark. -/
def isNumber (cs : List Char) : Bool :=
  let (_, unsigned) := match cs with
    | '-' :: rest => (true, rest)
    | rest => (false, rest)
  let mantissa := unsigned.takeWhile fun c => !Numeral.isExponentMark c
  let whole := mantissa.takeWhile (· ≠ '.')
  let part := mantissa.drop whole.length
  let exponent := unsigned.drop mantissa.length
  isDigits whole && (whole.length = 1 || whole.head? ≠ some '0') &&
    (part.isEmpty || isDigits (part.drop 1)) &&
    (exponent.isEmpty || isDigits (Numeral.splitSign (exponent.drop 1)).2)

/-! ## Values -/

/-- What follows a word that the text begins with. -/
def after? (word : String) (cs : List Char) : Option (List Char) :=
  if word.toList.isPrefixOf cs then some (cs.drop word.length) else none

mutual

/-- A value, and what follows it. -/
def value? : Nat → List Char → Option (JsonValue × List Char)
  | 0, _ => none
  | fuel + 1, cs =>
    match skipBlanks cs with
    | [] => none
    | '[' :: rest =>
      match skipBlanks rest with
      | ']' :: rest => some (.arr [], rest)
      | rest => items? fuel [] rest
    | '{' :: rest =>
      match skipBlanks rest with
      | '}' :: rest => some (.obj [], rest)
      | rest => members? fuel [] rest
    | '"' :: rest => (string? rest).map fun (s, rest) => (.str s, rest)
    | 't' :: rest => (after? "rue" rest).map (.bool true, ·)
    | 'f' :: rest => (after? "alse" rest).map (.bool false, ·)
    | 'n' :: rest => (after? "ull" rest).map (.null, ·)
    | cs =>
      let number := cs.takeWhile isNumberPart
      if isNumber number then some (.number (String.ofList number), cs.drop number.length) else none

/-- The items of an array after those read, of which the last comes first, up to the closing bracket. -/
def items? : Nat → List JsonValue → List Char → Option (JsonValue × List Char)
  | 0, _, _ => none
  | fuel + 1, read, cs =>
    match value? fuel cs with
    | none => none
    | some (v, rest) =>
      match skipBlanks rest with
      | ',' :: rest => items? fuel (v :: read) rest
      | ']' :: rest => some (.arr (v :: read).reverse, rest)
      | _ => none

/-- The members of an object after those read, of which the last comes first, up to the closing brace. -/
def members? : Nat → List (String × JsonValue) → List Char → Option (JsonValue × List Char)
  | 0, _, _ => none
  | fuel + 1, read, cs =>
    match skipBlanks cs with
    | '"' :: rest =>
      match string? rest with
      | none => none
      | some (k, rest) =>
        match skipBlanks rest with
        | ':' :: rest =>
          match value? fuel rest with
          | none => none
          | some (v, rest) =>
            match skipBlanks rest with
            | ',' :: rest => members? fuel ((k, v) :: read) rest
            | '}' :: rest => some (.obj ((k, v) :: read).reverse, rest)
            | _ => none
        | _ => none
    | _ => none

end

/-- The value that a text holds. -/
def parse? (s : String) : Option JsonValue :=
  let cs := s.toList
  match value? (cs.length + 1) cs with
  | some (v, rest) => if (skipBlanks rest).isEmpty then some v else none
  | none => none

end JsonValue

end Bracketing.Text
