/-!
# Positions in a source text

A position is a line counted from one, a column counted from zero and an offset, each a 64-bit word: differences and
the displayed column wrap around. Positions compare by line and then by column, as the wrapped difference.
-/

namespace Bracketing.Source

/-- A place in a source text: the line counts from one, the column from zero. -/
structure Position where
  line : Int64 := 0
  column : Int64 := 0
  offset : Int64 := 0
  deriving DecidableEq, Inhabited, Repr

namespace Position

/-- The position that has not been set. -/
def none : Position := {}

/-- The column as people count it, from one. -/
def shownColumn (p : Position) : Int64 := p.column + 1

/-- A position is set when its line is positive. -/
def isSet (p : Position) : Bool := 0 < p.line

/-- Line and column, as in `3:5`. -/
def text (p : Position) : String := toString p.line ++ ":" ++ toString p.shownColumn

/-- The difference of the lines, or of the columns on one line; its sign tells which position comes first. -/
def compare (a b : Position) : Int64 :=
  if a.line - b.line ≠ 0 then a.line - b.line else a.column - b.column

end Position

/-- The stretch of source text between two positions. -/
structure Span where
  start : Position := {}
  stop : Position := {}
  deriving DecidableEq, Inhabited, Repr

/-- The span `t` lies within the span `s`. -/
def Span.contains (s t : Span) : Bool :=
  s.start.compare t.start ≤ 0 && t.stop.compare s.stop ≤ 0

end Bracketing.Source
