import Bracketing.Document.Lexeme.Basic

/-!
# Scalars in quotes

Between single quotes a quote is written twice and nothing else is special. Between double quotes a backslash begins an
escape. In both, the first end of a line reads as a blank and each further one as an end of line, blanks around them do
not count, and no line may begin or end a document.

A tab between double quotes is kept, but it makes the reader pass over one more character after the closing quote,
unless it stands right before that quote.
-/

namespace Bracketing.Document.Quoted

/-- The digit that a character stands for in an escape. Letters up to `F` have their usual value; for every other
character its distance from zero is taken. -/
def digit (c : Char) : Int :=
  if 'A' ≤ c && c ≤ 'F' then c.toNat - 'A'.toNat + 10
  else if 'a' ≤ c && c ≤ 'f' then c.toNat - 'a'.toNat + 10
  else (c.toNat : Int) - '0'.toNat

/-- The number that digits write in base sixteen. -/
def hexadecimal (cs : List Char) : Int := cs.foldl (fun n c => n * 16 + digit c) 0

/-- The character of a code, which counts modulo `2 ^ 32`; a code of no character gives the replacement character. -/
def charOf (code : Int) : Char :=
  let n := (code % 4294967296).toNat
  if n.isValidChar then Char.ofNat n else '\uFFFD'

/-- What a one-letter escape stands for. For the last four these are the bytes that their character takes, each read as
a character. -/
def letter? : Char → Option (List Char)
  | '0' => some ['\x00']
  | 'a' => some ['\x07']
  | 'b' => some ['\x08']
  | 't' | '\t' => some ['\t']
  | 'n' => some ['\n']
  | 'v' => some ['\x0b']
  | 'f' => some ['\x0c']
  | 'r' => some ['\r']
  | 'e' => some ['\x1b']
  | ' ' => some [' ']
  | '"' => some ['"']
  | '/' => some ['/']
  | '\\' => some ['\\']
  | 'N' => some ['\u00c2', '\u0085']
  | '_' => some ['\u00c2', '\u00a0']
  | 'L' => some ['\u00e2', '\u0080', '\u00a8']
  | 'P' => some ['\u00e2', '\u0080', '\u00a9']
  | _ => none

/-- The character of an escape by its code, and the number of characters that the escape takes after its backslash. A
high surrogate needs a low one after it, and the two make one character. -/
def coded? : List Char → Option (Char × Nat)
  | 'x' :: a :: b :: _ => some (charOf (hexadecimal [a, b]), 3)
  | 'x' :: _ => some ('x', 1)
  | 'u' :: a :: b :: c :: d :: rest =>
    let high := hexadecimal [a, b, c, d]
    if 0xD800 ≤ high && high ≤ 0xDBFF then
      match rest with
      | '\\' :: 'u' :: a :: b :: c :: d :: _ =>
        let low := hexadecimal [a, b, c, d]
        if 0xDC00 ≤ low && low ≤ 0xDFFF then some (charOf ((high - 0xD800) * 0x400 + (low - 0xDC00) + 0x10000), 11)
        else none
      | _ => none
    else some (charOf high, 5)
  | 'U' :: a :: b :: c :: d :: e :: f :: g :: h :: _ => some (charOf (hexadecimal [a, b, c, d, e, f, g, h]), 9)
  | _ => none

/-- What the escape behind a backslash stands for, and the number of characters that it takes. -/
def escape? : List Char → Option (List Char × Nat)
  | [] => none
  | c :: rest =>
    match letter? c with
    | some ds => some (ds, 1)
    | none => (coded? (c :: rest)).map fun (d, taken) => ([d], taken)

/-- A scalar in quotes that is being read. -/
structure Reading where
  /-- The characters so far, the last one first. -/
  chars : List Char := []
  line : Nat
  /-- The column of the next character. -/
  column : Nat
  /-- Only blanks have been read on this line, and it is not the first. -/
  leading : Bool := false
  /-- The number of line ends, where a carriage return with a line feed is one. -/
  breaks : Nat := 0
  /-- The last character was a carriage return. -/
  returned : Bool := false
  /-- The number of characters to pass over after the closing quote. -/
  excess : Nat := 0

namespace Reading

/-- One more character. -/
def add (r : Reading) (c : Char) : Reading :=
  { r with chars := c :: r.chars, column := r.column + 1, leading := false, returned := false }

/-- Characters that do not count. -/
def pass (r : Reading) (n : Nat) : Reading := { r with column := r.column + n, returned := false }

/-- The end of a line. -/
def endLine (r : Reading) (c : Char) : Reading :=
  { r with
    chars := (if r.leading then '\n' else ' ') :: r.chars.dropWhile (· = ' ')
    line := r.line + 1
    column := 1
    leading := true
    breaks := if c = '\n' && r.returned then r.breaks else r.breaks + 1
    returned := c = '\r' }

/-- The end of a line after a backslash, which does not count. The next character is in the given column. -/
def joinLine (r : Reading) (column : Nat) : Reading :=
  { r with line := r.line + 1, column := column, leading := true, breaks := r.breaks + 1, returned := false }

/-- The characters of an escape that takes `n` characters after its backslash. -/
def escape (r : Reading) (ds : List Char) (n : Nat) : Reading :=
  { r with
    chars := ds.reverse ++ r.chars
    column := r.column + 1 + n
    leading := false
    returned := false }

/-- A tab between double quotes. -/
def tab (r : Reading) (beforeQuote : Bool) : Reading :=
  let extra := if beforeQuote then 0 else 1
  { r with
    chars := '\t' :: r.chars
    column := r.column + 1 + extra
    returned := false
    excess := r.excess + extra }

end Reading

/-- The rest of a scalar in single quotes, and what follows its closing quote. The number tells how many characters have
been read ahead. -/
def single (margin : Nat) : List Char → Nat → Reading → Option (Reading × List Char)
  | [], _, _ => none
  | _ :: rest, ahead + 1, r => single margin rest ahead r
  | c :: rest, 0, r =>
    if isBreak c then if isDocumentMarker rest then none else single margin rest 0 (r.endLine c)
    else if r.leading && c = ' ' then single margin rest 0 (r.pass 1)
    else if r.leading && c = '\t' then if r.column ≤ margin then none else single margin rest 0 (r.pass 1)
    else if c ≠ '\'' then single margin rest 0 (r.add c)
    else if rest.head? = some '\'' then single margin rest 1 { r.pass 2 with chars := c :: r.chars }
    else some (r.pass 1, rest)

/-- The rest of a scalar in double quotes, and what follows its closing quote. The number tells how many characters have
been read ahead. -/
def double (margin : Nat) : List Char → Nat → Reading → Option (Reading × List Char)
  | [], _, _ => none
  | _ :: rest, ahead + 1, r => double margin rest ahead r
  | c :: rest, 0, r =>
    if isBreak c then if isDocumentMarker rest then none else double margin rest 0 (r.endLine c)
    else if r.leading && c = ' ' then double margin rest 0 (r.pass 1)
    else if r.leading && c = '\t' then if r.column ≤ margin then none else double margin rest 0 (r.pass 1)
    else if c = '\\' then
      if rest.head? = some '\n' then double margin rest 1 (r.joinLine 1)
      else if "\r\n".toList.isPrefixOf rest then double margin rest 2 (r.joinLine 3)
      else if rest.head? = some '\r' then double margin rest 1 (r.joinLine 2)
      else
        match escape? rest with
        | some (ds, taken) => double margin rest taken (r.escape ds taken)
        | none => none
    else if c = '\t' then
      -- Blanks up to the end of the line are left out.
      let blanks := (rest.takeWhile isBlank).length
      if (rest.drop blanks).head?.all isBreak then double margin rest blanks (r.pass (1 + blanks))
      else double margin rest 0 (r.tab (rest.head? = some '"'))
    else if c ≠ '"' then double margin rest 0 (r.add c)
    else some (r.pass 1, rest)

/-- The scalar after an opening quote, and what follows its closing quote. The margin is the column up to which a tab
must not indent a line. -/
def read? (quote : Char) (margin line column : Nat) (rest : List Char) : Option (Reading × List Char) :=
  let start : Reading := { line := line, column := column + 1 }
  if quote = '"' then double margin rest 0 start else single margin rest 0 start

end Bracketing.Document.Quoted
