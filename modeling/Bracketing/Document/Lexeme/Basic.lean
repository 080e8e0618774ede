import Bracketing.Document.Scalar

/-!
# Lexemes

A document is a sequence of lexemes: scalars, marks such as a dash or a brace, and the signs that begin and end
documents. A lexeme knows the line and the column where it starts, since indentation tells what belongs together.
-/

namespace Bracketing.Document

/-- What a lexeme is. -/
inductive Lexeme.Kind where
  /-- A scalar without quotes, which may stand for a number. -/
  | plain
  /-- A scalar without quotes that stands for itself. -/
  | text
  | quoted
  /-- The mark of a text that keeps its lines, with its indicators. -/
  | blockHead
  | comment
  | dash
  | question
  | colon
  | comma
  | openBrace
  | closeBrace
  | openBracket
  | closeBracket
  /-- The sign that gives the next value a name. -/
  | anchor
  /-- The sign that stands for a named value. -/
  | reference
  | tag
  | directive
  /-- The key whose value brings its entries along. -/
  | merge
  | documentStart
  | documentEnd
  deriving DecidableEq, Repr, Inhabited

/-- A word or mark of a document. -/
structure Lexeme where
  kind : Lexeme.Kind
  text : String
  /-- The line where it starts, counted from one. -/
  line : Nat
  /-- The column where it starts, counted from one. -/
  column : Nat
  /-- The number of line ends that are part of it. -/
  breaks : Nat := 0
  deriving DecidableEq, Repr, Inhabited

namespace Lexeme

/-- What the lexeme stands for if it is a scalar. -/
def datum? (l : Lexeme) : Option Datum :=
  match l.kind with
  | .plain => some (Scalar.resolve l.text)
  | .text | .quoted | .merge => some (.str l.text)
  | _ => none

/-- The lexeme is a text that is not in quotes. -/
def isBareText (l : Lexeme) : Bool :=
  match l.kind, l.datum? with
  | .quoted, _ | .merge, _ => false
  | _, some (.str _) => true
  | _, _ => false

/-- The lexeme is a mark or sign that cannot be a key. -/
def isMark (l : Lexeme) : Bool :=
  match l.kind with
  | .directive | .documentStart | .documentEnd | .comma | .colon | .dash | .openBrace | .closeBrace | .openBracket
  | .closeBracket => true
  | _ => false

end Lexeme

/-! ## Characters -/

/-- A blank within a line. -/
def isBlank (c : Char) : Bool := c = ' ' || c = '\t'

/-- The character ends a line; of two that do so together each counts. -/
def isBreak (c : Char) : Bool := c = '\n' || c = '\r'

/-- What follows is a blank or the end of a line or of the document. -/
def endsWord (cs : List Char) : Bool := cs.head?.all fun c => isBlank c || isBreak c

/-- The number of line ends, where a carriage return with a line feed is one. -/
def countBreaks : List Char → Nat
  | '\r' :: '\n' :: rest => countBreaks rest + 1
  | c :: rest => countBreaks rest + if isBreak c then 1 else 0
  | [] => 0

/-- The characters are a line that begins or ends a document: three dashes or three dots and nothing close to them. -/
def isDocumentMarker (cs : List Char) : Bool :=
  ("---".toList.isPrefixOf cs || "...".toList.isPrefixOf cs) && endsWord (cs.drop 3)

end Bracketing.Document
