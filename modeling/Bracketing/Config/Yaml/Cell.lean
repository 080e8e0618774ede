/-!
# Characters with their place

A configuration file is read as a list of cells: each character with its column, and with what stands before it on its
line. So a reader can tell indentation and comments without looking back.
-/

namespace Bracketing.Config.Yaml

/-- A character of a file with its place on its line. -/
structure Cell where
  char : Char
  column : Nat
  /-- A blank or the start of the line comes before. -/
  spaced : Bool
  /-- Only blanks come before, and one of them is a tab. -/
  tabbed : Bool
  deriving Repr, Inhabited

namespace Cell

/-- A blank within a line. -/
def isBlankChar (c : Char) : Bool := c = ' ' || c = '\t'

/-- The cell is a blank within a line. -/
def isBlank (c : Cell) : Bool := isBlankChar c.char

/-- The cell ends its line. -/
def isBreak (c : Cell) : Bool := c.char = '\n'

/-- Every end of line as one character. -/
def unifyBreaks : List Char → List Char
  | '\r' :: '\n' :: rest => '\n' :: unifyBreaks rest
  | '\r' :: rest => '\n' :: unifyBreaks rest
  | c :: rest => c :: unifyBreaks rest
  | [] => []

/-- The cells of characters that start at a column; `leading` tells that only blanks come before on the line. -/
def place (column : Nat) (spaced leading tab : Bool) : List Char → List Cell
  | [] => []
  | c :: rest =>
    ⟨c, column, spaced, leading && tab⟩ ::
      if c = '\n' then place 0 true true false rest
      else place (column + 1) (isBlankChar c) (leading && isBlankChar c) (tab || c = '\t') rest

/-- A character that a file may hold. -/
def isAllowed (c : Char) : Bool :=
  let n := c.toNat
  n = 9 || n = 10 || n = 13 || n = 0x85 || (0x20 ≤ n && n ≤ 0x7E) ||
    (0xA0 ≤ n && n ≠ 0xFEFF && n ≠ 0xFFFE && n ≠ 0xFFFF)

/-- The cells of a text, which may begin with a byte order mark. -/
def ofText? (s : String) : Option (List Cell) :=
  let cs := match s.toList with
    | '\uFEFF' :: rest => rest
    | cs => cs
  if cs.all isAllowed then some (place 0 true true false (unifyBreaks cs)) else none

/-- The characters of cells. -/
def chars (cs : List Cell) : List Char := cs.map (·.char)

/-- The cells from the next one that is no blank. -/
def skipBlanks (cs : List Cell) : List Cell := cs.dropWhile isBlank

/-- The cells from the next one that is neither blank nor end of line nor part of a comment. -/
def skipTriviaFrom (inComment : Bool) : List Cell → List Cell
  | [] => []
  | c :: rest =>
    if inComment then skipTriviaFrom (!c.isBreak) rest
    else if c.isBlank || c.isBreak then skipTriviaFrom false rest
    else if c.char = '#' && c.spaced then skipTriviaFrom true rest
    else c :: rest

/-- The cells from the next word. -/
def skipTrivia (cs : List Cell) : List Cell := skipTriviaFrom false cs

/-- The cells from the next word in block style, where no tab may indent a line. -/
def skipLines? (cs : List Cell) : Option (List Cell) :=
  let next := skipTrivia cs
  let passed := cs.take (cs.length - next.length)
  if (passed ++ next.take 1).any (·.tabbed) then none else some next

/-- Nothing but blanks and a comment stand before the end of the line. -/
def endsLine (cs : List Cell) : Bool :=
  match skipBlanks cs with
  | [] => true
  | c :: _ => c.isBreak || (c.char = '#' && c.spaced)

/-- A blank, the end of the line or the end of the file comes next. -/
def endsWord : List Cell → Bool
  | [] => true
  | c :: _ => c.isBlank || c.isBreak

/-- The cells begin with a mark of three characters that stands alone at the start of a line. -/
def isMarker (mark : Char) : List Cell → Bool
  | a :: b :: c :: rest => a.column = 0 && a.char = mark && b.char = mark && c.char = mark && endsWord rest
  | _ => false

/-- The document ends here: there is no more text, or the next document begins. -/
def endsDocument (cs : List Cell) : Bool := cs.isEmpty || isMarker '-' cs || isMarker '.' cs

end Cell

end Bracketing.Config.Yaml
