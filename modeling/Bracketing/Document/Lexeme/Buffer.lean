import Bracketing.Document.Lexeme.Block

/-!
# The scalar being read

The characters of a scalar without quotes are gathered in a buffer. Blanks at its end wait until something follows them,
for they do not belong to the scalar otherwise. Beside the characters the buffer keeps the source they came from.
-/

namespace Bracketing.Document

/-- The characters of a scalar that is being read. All lists have the last character first. -/
structure Buffer where
  chars : List Char := []
  /-- Blanks and line ends after the characters. -/
  waiting : List Char := []
  source : List Char := []
  deriving DecidableEq, Repr, Inhabited

namespace Buffer

/-- The scalar has begun. -/
def isFilled (b : Buffer) : Bool := !b.chars.isEmpty

/-- Nothing has been read, not even a line end. -/
def isEmpty (b : Buffer) : Bool := b.chars.isEmpty && b.waiting.isEmpty

/-- The number of characters with those that wait. -/
def length (b : Buffer) : Nat := b.chars.length + b.waiting.length

/-- One more character that counts, whatever it is. -/
def keep (b : Buffer) (c : Char) : Buffer := { b with chars := c :: (b.waiting ++ b.chars), waiting := [] }

/-- One more character; a blank waits, and one at the start is left out. -/
def add (b : Buffer) (c : Char) : Buffer :=
  if isBlank c then if b.isEmpty then b else { b with waiting := c :: b.waiting }
  else b.keep c

/-- One more character of a block text, where only spaces wait. -/
def addKeepingTabs (b : Buffer) (c : Char) : Buffer :=
  if c = ' ' then if b.isEmpty then b else { b with waiting := c :: b.waiting }
  else b.keep c

/-- One more character of the source. -/
def addSource (b : Buffer) (c : Char) : Buffer := { b with source := c :: b.source }

/-- One more character of the scalar and its source. -/
def addBoth (b : Buffer) (c : Char) : Buffer := (b.add c).addSource c

/-- Without the blanks at the end of the source, if there are any. -/
def trim (b : Buffer) : Buffer :=
  if b.source.head?.any isBlank then { b with source := b.source.dropWhile isBlank, waiting := [] } else b

/-- An empty line within the scalar. -/
def addEmptyLine (b : Buffer) : Buffer :=
  match b.waiting with
  | ' ' :: rest => { b with waiting := '\n' :: rest }
  | waiting => { b with waiting := '\n' :: waiting }

/-- The characters of a block text changed before more follow. -/
def refold (b : Buffer) (f : List Char → List Char) : Buffer :=
  match b.waiting with
  | [] => { b with chars := f b.chars }
  | _ => b

/-- The number of line ends within the source, apart from those at its ends. -/
def breaks (b : Buffer) : Nat :=
  let isSpace (c : Char) : Bool := c = ' ' || isBreak c
  countBreaks ((b.source.dropWhile isSpace).reverse.dropWhile isSpace)

/-- The source starts with a tab, perhaps after a space. -/
def startsWithTab (b : Buffer) : Bool :=
  match b.source.reverse with
  | '\t' :: _ | ' ' :: '\t' :: _ => true
  | _ => false

end Buffer

end Bracketing.Document
