import Bracketing.Document.Lexeme.Basic

/-!
# Texts that keep their lines

A block text is introduced by a mark at the end of a line and holds the more indented lines that follow. After `|` it
keeps its line ends, after `>` single ones become blanks. A sign after the mark tells what becomes of the line ends at
the end of the text, and a digit how far the text is indented.

A scalar without quotes that goes on with a dash on a more indented line is read in the same way to its end, with the
line ends of a folded text.
-/

namespace Bracketing.Document

/-- What becomes of the line ends at the end of a block text. -/
inductive Chomp where
  /-- One is kept. -/
  | clip
  | strip
  | keep
  deriving DecidableEq, Repr

/-- A block text that is being read. Columns are zero as long as they are not known. -/
structure Block where
  literal : Bool
  chomp : Chomp
  /-- The header says how far the text is indented. -/
  measured : Bool := false
  /-- The column where the lines of the text start. -/
  firstColumn : Nat := 0
  /-- The column where the current line starts. -/
  lineColumn : Nat := 0
  /-- The column where the line before starts. -/
  previousColumn : Nat := 0
  /-- The column where the last line starts that was not empty. -/
  lastColumn : Nat := 0
  /-- The column reached by a line of blanks before the first line with text. -/
  blankColumn : Nat := 0
  /-- An end of line has been read that may become a blank. -/
  folding : Bool := false
  deriving DecidableEq, Repr

namespace Block

/-! ## The header -/

/-- The indicators without the signs at either end. -/
def unsigned (indicators : List Char) : List Char :=
  let strip (sign : Char) (cs : List Char) : List Char := if cs.head? = some sign then cs.drop 1 else cs
  (strip '+' (strip '-' (strip '+' (strip '-' indicators)).reverse)).reverse

/-- The block text of indicators, below the column of its key or dash. -/
def ofIndicators? (literal : Bool) (margin : Nat) (indicators : List Char) : Option Block :=
  let has (sign : Char) : Bool := indicators.head? = some sign || indicators.getLast? = some sign
  let chomp : Chomp := if has '-' then .strip else if has '+' then .keep else .clip
  match unsigned indicators with
  | [] => some { literal, chomp }
  | digits =>
    match Number.Numeral.natural? 10 digits with
    | some n =>
      if digits = ['0'] || 9 < n then none
      else if n = 0 then some { literal, chomp }
      else some { literal, chomp, measured := true, firstColumn := margin + n }
    | none => none

/-- The scalar that goes on with a dash in a column. -/
def ofDash (column : Nat) : Block :=
  { literal := false, chomp := .strip, firstColumn := column, lineColumn := column }

/-! ## Lines -/

/-- Text has been found in a column. -/
def atColumn (b : Block) (column : Nat) : Block :=
  { b with
    firstColumn := if b.firstColumn = 0 then column else b.firstColumn
    lineColumn := if b.lineColumn = 0 then column else b.lineColumn }

/-- The line keeps the indentation that the header asks for. -/
def isIndented (b : Block) : Bool := !b.measured || b.firstColumn ≤ b.lineColumn

/-- No line of blanks before the first line with text went further in than that. -/
def followsBlanks (b : Block) (column : Nat) : Bool := b.firstColumn ≠ 0 || b.blankColumn ≤ column

/-- The column belongs to the indentation. -/
def isMargin (b : Block) (column : Nat) : Bool :=
  if b.firstColumn = 0 then column = 1 else column < b.firstColumn

/-- The line ends, in the given column. -/
def endLine (b : Block) (column : Nat) : Block :=
  { b with
    blankColumn := if b.firstColumn = 0 then column - 1 else b.blankColumn
    previousColumn := b.lineColumn
    lastColumn := if b.lineColumn = 0 then b.lastColumn else b.lineColumn
    folding := true
    lineColumn := 0 }

/-- The characters so far, the last one first, before text in a column: in a folded text an end of line between two
lines of the same indentation becomes a blank, or goes away if more of them follow. -/
def fold (b : Block) (column : Nat) (chars : List Char) : List Char :=
  if b.literal || !b.folding then chars
  else if b.lineColumn = b.previousColumn then
    match chars with
    | '\n' :: rest => ' ' :: rest
    | chars => chars
  else if b.previousColumn = 0 && b.lastColumn = column then
    match chars with
    | '\n' :: '\n' :: rest => '\n' :: rest
    | chars => chars
  else chars

/-- The text of the characters that have been read, the last one first, with the line ends at its end as the header
wants them. -/
def finish (b : Block) (chars : List Char) : List Char :=
  let ends := chars.takeWhile (· = '\n')
  let body := chars.dropWhile (· = '\n')
  let kept := match b.chomp with
    | .strip => body.dropWhile (· = ' ')
    | .clip => ends.take 1 ++ body
    | .keep => chars
  let kept := if kept = ['\n'] then [] else kept
  if b.chomp = .keep && kept.isEmpty then ['\n'] else kept

end Block

end Bracketing.Document
