import Bracketing.Config.Yaml.Cell
import Bracketing.Number.Numeral

/-!
# Scalars in quotes

Between single quotes a quote is written twice and nothing else is special. Between double quotes a backslash begins an
escape. In both, a single end of line reads as a blank and each further one as an end of line.
-/

namespace Bracketing.Config.Yaml.Quoted

/-- The character that a one-letter escape stands for. -/
def letter? : Char → Option Char
  | '0' => some '\x00'
  | 'a' => some '\x07'
  | 'b' => some '\x08'
  | 't' | '\t' => some '\t'
  | 'n' => some '\n'
  | 'v' => some '\x0b'
  | 'f' => some '\x0c'
  | 'r' => some '\r'
  | 'e' => some '\x1b'
  | ' ' => some ' '
  | '"' => some '"'
  | '\'' => some '\''
  | '/' => some '/'
  | '\\' => some '\\'
  | 'N' => some '\u0085'
  | '_' => some '\u00a0'
  | 'L' => some '\u2028'
  | 'P' => some '\u2029'
  | _ => none

/-- The number of hexadecimal digits after an escape letter. -/
def hexWidth? : Char → Option Nat
  | 'x' => some 2
  | 'u' => some 4
  | 'U' => some 8
  | _ => none

/-- The character of the escape that follows a backslash, and the number of characters that it takes. A code has to be
that of a character. -/
def escape? : List Char → Option (Char × Nat)
  | [] => none
  | c :: rest =>
    match letter? c, hexWidth? c with
    | some d, _ => some (d, 1)
    | none, some width =>
      let digits := rest.take width
      match Number.Numeral.natural? 16 digits with
      | some n => if digits.length = width && n.isValidChar then some (Char.ofNat n, width + 1) else none
      | none => none
    | none, none => none

/-- Passes over blanks and ends of line, counting the latter. -/
def skipBreaks : Nat → List Cell → Nat × List Cell
  | n, [] => (n, [])
  | n, c :: rest =>
    if c.isBreak then skipBreaks (n + 1) rest
    else if c.isBlank then skipBreaks n rest
    else (n, c :: rest)

/-- The characters written so far, last first, without the blanks before an end of line. -/
def dropBlanks (written : List Char) : List Char := written.dropWhile Cell.isBlankChar

/-- The characters, last first, of an end of line followed by `n` more. -/
def foldedBreak (n : Nat) : List Char := if n = 0 then [' '] else List.replicate n '\n'

/-- The characters written so far, last first, after the ends of line that come next, and what follows these. No line
may begin or end a document. -/
def foldBreaks? (written : List Char) (rest : List Cell) : Option (List Char × List Cell) :=
  let (n, more) := skipBreaks 0 rest
  if Cell.endsDocument more then none else some (foldedBreak n ++ dropBlanks written, more)

/-- The rest of a scalar in double quotes after `written`, which is last first. -/
def double : Nat → List Char → List Cell → Option (List Char × List Cell)
  | 0, _, _ => none
  | _, _, [] => none
  | fuel + 1, written, c :: rest =>
    if c.char = '"' then some (written, rest)
    else if c.char = '\\' then
      match rest with
      | [] => none
      | d :: more =>
        if d.isBreak then double fuel written (Cell.skipBlanks more)
        else
          match escape? (Cell.chars (rest.take 9)) with
          | some (e, taken) => double fuel (e :: written) (rest.drop taken)
          | none => none
    else if c.isBreak then
      match foldBreaks? written rest with
      | some (written, more) => double fuel written more
      | none => none
    else double fuel (c.char :: written) rest

/-- The rest of a scalar in single quotes after `written`, which is last first. -/
def single : Nat → List Char → List Cell → Option (List Char × List Cell)
  | 0, _, _ => none
  | _, _, [] => none
  | fuel + 1, written, c :: rest =>
    if c.char = '\'' then
      match rest with
      | d :: more => if d.char = '\'' then single fuel ('\'' :: written) more else some (written, rest)
      | [] => some (written, [])
    else if c.isBreak then
      match foldBreaks? written rest with
      | some (written, more) => single fuel written more
      | none => none
    else single fuel (c.char :: written) rest

/-- A scalar in quotes, and what follows it. -/
def read? : List Cell → Option (String × List Cell)
  | [] => none
  | c :: rest =>
    let chars? :=
      if c.char = '"' then double (rest.length + 1) [] rest
      else if c.char = '\'' then single (rest.length + 1) [] rest
      else none
    chars?.map fun (chars, more) => (String.ofList chars.reverse, more)

end Bracketing.Config.Yaml.Quoted
