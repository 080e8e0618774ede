import Bracketing.Document.Lexeme.Buffer
import Bracketing.Document.Lexeme.Quoted

/-!
# From characters to lexemes

The characters of a document are read from left to right. Most of them are gathered in a buffer, which becomes a lexeme
when a mark follows or when a line starts that is not indented further than the key or dash before. Whether a character
is a mark depends on what stands before and after it and on the brackets and braces that are open.

`Lexeme.scan?` gives the lexemes of a text, or nothing if there are none.
-/

namespace Bracketing.Document

/-- How a line is indented, seen from the key or dash before. -/
inductive Shift where
  /-- Not at the start of a line. -/
  | same
  | deeper
  | back
  deriving DecidableEq, Repr

/-- The state of reading a document. -/
structure Scan where
  rest : List Char
  /-- The character read last. -/
  previous : Option Char := none
  line : Nat := 1
  column : Nat := 1
  /-- The column of the last key or dash; zero before the first. -/
  margin : Nat := 0
  /-- The number of blanks at the start of the line. -/
  indent : Nat := 0
  /-- Only blanks have been read on this line. -/
  lineStart : Bool := true
  /-- The name of a value is being read. -/
  naming : Bool := false
  /-- A directive is being read. -/
  directing : Bool := false
  brackets : Int := 0
  braces : Nat := 0
  shift : Shift := .same
  /-- Where the scalar in the buffer starts, if it has gone on after the end of a line. -/
  start : Option (Nat × Nat) := none
  buffer : Buffer := {}
  /-- The block text that is being read. -/
  block : Option Block := none
  /-- The lexemes so far, the last one first. -/
  lexemes : List Lexeme := []

namespace Scan

/-! ## Moving on -/

/-- Passes over characters without counting columns. -/
def skip (s : Scan) (n : Nat) : Scan :=
  { s with rest := s.rest.drop n, previous := (s.rest.take n).getLast?.or s.previous }

/-- Passes over characters of the line. -/
def advance (s : Scan) (n : Nat) : Scan := { s.skip n with column := s.column + n }

/-- Passes over the end of a line. -/
def nextLine (s : Scan) : Scan :=
  { s.skip 1 with
    line := s.line + 1
    column := 1
    indent := 0
    lineStart := true
    naming := false
    directing := false }

/-- The characters after the next one. -/
def following (s : Scan) : List Char := s.rest.drop 1

/-- A bracket or brace is open. -/
def inFlow (s : Scan) : Bool := 0 < s.brackets || 0 < s.braces

/-- The next character is the last one. -/
def atEnd (s : Scan) : Bool := s.following.isEmpty

/-! ## Lexemes -/

/-- One more lexeme. -/
def emit (s : Scan) (l : Lexeme) : Scan := { s with lexemes := l :: s.lexemes }

/-- One more lexeme, which starts here. -/
def emitHere (s : Scan) (kind : Lexeme.Kind) (text : String) : Scan := s.emit ⟨kind, text, s.line, s.column, 0⟩

/-- Without a scalar or block text under way. -/
def clear (s : Scan) : Scan := { s with buffer := {}, block := none }

/-- The text in the buffer. -/
def bufferedText (s : Scan) : String :=
  let chars := match s.block with
    | some b => b.finish s.buffer.chars
    | none => s.buffer.chars
  String.ofList chars.reverse

/-- Where the scalar in the buffer starts. A block text has no column of its own. -/
def bufferStart (s : Scan) : Nat × Nat :=
  match s.start, s.block with
  | some place, _ => place
  | none, some _ => (s.line, 0)
  | none, none => (s.line, s.column - s.buffer.length)

/-- The kind of the scalar in the buffer. After the tag of texts it is a text. -/
def bufferKind (s : Scan) : Lexeme.Kind :=
  if s.block.isSome then .text
  else if s.lexemes.head?.any fun l => l.kind = .tag && l.text = "!!str" then .text
  else .plain

/-- The scalar in the buffer as a lexeme, if there is one. -/
def pending? (s : Scan) : Option Lexeme :=
  let text := s.bufferedText
  let (line, column) := s.bufferStart
  if text.isEmpty then none else some ⟨s.bufferKind, text, line, column, s.buffer.breaks⟩

/-- The scalar in the buffer becomes a lexeme. -/
def flush (s : Scan) : Scan :=
  match s.pending? with
  | some l => { s.emit l with start := none, buffer := {} }
  | none => { s with start := none, buffer := { s.buffer with chars := [], waiting := [] } }

/-- A mark of the given length ends the scalar in the buffer. -/
def mark (s : Scan) (kind : Lexeme.Kind) (text : String) : Scan :=
  ((s.flush.emitHere kind text).advance text.length).clear

/-- The next character is part of a scalar. -/
def gather (s : Scan) (c : Char) : Scan := { s with buffer := s.buffer.addBoth c }.advance 1

/-! ## Lines -/

/-- Sees how the line is indented, before its first character is read. -/
def indentLine (s : Scan) (c : Char) : Scan :=
  if !s.lineStart then { s with shift := .same }
  else if c = ' ' then { s with indent := s.indent + 1 }
  else if isBreak c || c = '\t' then s
  else
    { s with
      lineStart := false
      shift := if s.margin = 0 then s.shift else if s.margin < s.column then .deeper else .back }

/-- Reads the end of a line. A scalar may go on behind it. -/
def endLine (s : Scan) (c : Char) : Scan :=
  let s :=
    if s.start.isNone && !s.buffer.isEmpty then
      { s with start := some (s.line, s.column - s.buffer.chars.length) }
    else s
  let s := { s with buffer := s.buffer.trim }
  let paired := c = '\r' && s.following.head? = some '\n'
  let s := if paired then { s.skip 1 with buffer := s.buffer.addSource '\r' } else s
  let s := if s.atEnd || s.naming || s.directing then s.flush else s
  let buffer := if s.buffer.isFilled && s.lineStart then s.buffer.addEmptyLine else s.buffer.add ' '
  { s with buffer := buffer.addSource (if paired then '\n' else c) }.nextLine

/-- Reads a space. -/
def space (s : Scan) : Scan :=
  if s.lineStart then { s with buffer := s.buffer.addSource ' ' }.advance 1
  else if s.directing then
    let s := s.flush
    { s with buffer := s.buffer.addSource ' ' }.advance 1
  else if s.naming then { s.flush with naming := false }.gather ' '
  else s.gather ' '

/-- Reads a tab. It is left out of a scalar, and it cannot indent a line of a block. -/
def tab? (s : Scan) : Option Scan :=
  if s.margin < s.column || (s.margin = 0 && s.buffer.isFilled) then
    some ({ s with indent := s.indent + 1, buffer := s.buffer.addSource '\t' }.skip 1)
  else if s.lineStart && !s.inFlow then none
  else some (s.gather '\t')

/-- Reads a comment to the end of its line. -/
def comment (s : Scan) : Scan :=
  let s := s.flush
  let text := s.following.takeWhile fun c => !isBreak c
  ((s.emitHere .comment (String.ofList text)).skip (text.length + 1)).nextLine.clear

/-! ## Documents -/

/-- The next characters are exactly three of a kind. -/
def isTriple (s : Scan) (c : Char) : Bool := (s.rest.takeWhile (· = c)).length = 3

/-- A line begins here that may begin or end a document. -/
def atMargin (s : Scan) : Bool := s.indent = 0 && s.column = 1

/-- The next document begins here. -/
def startsDocument (s : Scan) : Bool := s.atMargin && s.isTriple '-' && endsWord (s.rest.drop 3)

/-- The document ends here. -/
def endsDocument (s : Scan) : Bool := s.atMargin && s.isTriple '.'

/-! ## Keys and values -/

/-- The colon that comes next separates a key from its value. -/
def isColon (s : Scan) : Bool :=
  !s.naming && !s.directing &&
    if s.braces = 0 then endsWord s.following
    else s.following.head? ≠ some '/' && s.lexemes.head?.all (·.kind ≠ .colon)

/-- Reads the colon between a key and its value. A key is not indented by a tab. -/
def colon? (s : Scan) : Option Scan :=
  if s.buffer.startsWithTab then none
  else
    let margin := match s.pending?, s.lexemes.head? with
      | some key, _ => key.column
      | none, some key => if key.kind = .quoted then key.column else s.margin
      | none, none => s.margin
    some { s.mark .colon ":" with margin := margin }

/-- Reads the dash before an item of a list. -/
def item? (s : Scan) : Option Scan :=
  if s.buffer.startsWithTab then none else some { s.mark .dash "-" with margin := s.column }

/-- The next characters are the key that brings entries along. -/
def isMerge (s : Scan) : Bool :=
  (s.rest.takeWhile (· = '<')).length = 2 &&
    match (s.rest.drop 2).dropWhile (· = ' ') with
    | ':' :: c :: _ => c = ' ' || isBreak c
    | _ => false

/-- Reads the key that brings entries along. -/
def merge (s : Scan) : Scan := { ((s.emitHere .merge "<<").advance 2).clear with margin := s.column }

/-! ## Tags, texts and quotes -/

/-- Reads a tag. One that ends the document is left out. -/
def tag? (s : Scan) : Option Scan :=
  let ends (c : Char) : Bool := c = ' ' || isBreak c || (c = ',' && s.inFlow) || c = '{' || c = '}'
  let name := s.following.takeWhile fun c => !ends c
  match s.following.drop name.length with
  | [] => some (s.advance (name.length + 1)).clear
  | c :: _ =>
    if c = '{' || c = '}' then none
    else
      let s := (s.emitHere .tag (String.ofList ('!' :: name))).skip 1
      some (if c = ' ' then (s.advance (name.length + 1)).clear else (s.advance name.length).clear)

/-- Reads the first line of a block text. -/
def blockHead? (s : Scan) (c : Char) : Option Scan :=
  let line := s.following.takeWhile fun c => !isBreak c
  let after := s.following.drop line.length
  let taken := if "\r\n".toList.isPrefixOf after then line.length + 2 else line.length + 1
  let line := if after.isEmpty then line.dropLast else line
  let indicators := if line.head? = some '#' then line else line.takeWhile (· ≠ '#')
  let indicators := (indicators.reverse.dropWhile isBlank).reverse
  let margin := if s.column = 1 then 1 else s.margin
  match Block.ofIndicators? (c = '|') margin indicators with
  | some b =>
    let s := s.emitHere .blockHead (String.ofList (c :: indicators))
    some { (s.skip taken).nextLine with block := some b, buffer := {}, shift := .same, margin := margin }
  | none => none

/-- Reads a scalar in quotes. -/
def quoted? (s : Scan) (c : Char) : Option Scan :=
  match Quoted.read? c s.margin s.line s.column s.following with
  | none => none
  | some (r, after) =>
    let l : Lexeme := ⟨.quoted, String.ofList r.chars.reverse, s.line, s.column, r.breaks⟩
    let s := if 0 < r.breaks then
        { s with indent := 0, lineStart := true, naming := false, directing := false }
      else s
    let s := { (s.emit l).clear with rest := after, previous := some c, line := r.line, column := r.column }
    some (s.skip r.excess)

/-! ## Block texts -/

/-- Ends a block text here. -/
def endBlock (s : Scan) : Scan := (s.emitHere .text s.bufferedText).clear

/-- Reads the next character of a block text. -/
def blockChar? (s : Scan) (b : Block) (c : Char) : Option Scan :=
  let s := if c = '\r' && s.following.head? = some '\n' then s.skip 1 else s
  let c := if c = '\r' then '\n' else c
  let indent := s.lineStart && c = ' '
  let indented := b.firstColumn ≠ 0 && b.firstColumn ≤ s.column
  let spaced := if indented then s.buffer.keep ' ' else s.buffer
  let unfolded := if indented then { b with folding := false } else b
  if s.atEnd then
    let b := b.atColumn s.column
    let s := { s with buffer := if indent then spaced else s.buffer.add c, block := some b }
    if b.isIndented then some (s.endBlock.advance 1) else none
  else if c = '\n' then
    let s := { s with buffer := s.buffer.add c, block := some (b.endLine s.column) }.nextLine
    some (if isDocumentMarker s.rest then s.endBlock else s)
  else if indent then some ({ s with buffer := spaced, block := some unfolded }.advance 1)
  else if c = '\t' && !b.isMargin s.column then
    some ({ s with buffer := s.buffer.addKeepingTabs c }.advance 1)
  else if c = '\t' && s.lineStart then none
  else
    let found := b.atColumn s.column
    if !b.followsBlanks s.column || !found.isIndented then none
    else
      let buffer := (s.buffer.refold (found.fold s.column)).addKeepingTabs c
      some ({ s with
        buffer := buffer
        block := some { found with folding := false }
        margin := if 1 < found.firstColumn then found.firstColumn - 1 else s.margin }.advance 1)

/-- Leaves a block text before a line that does not belong to it. A text without lines is empty, but a header at the
start of a line needs some. -/
def leaveBlock? (s : Scan) : Option Scan :=
  match s.lexemes.head? with
  | none => some { s with block := none }
  | some l =>
    if l.column = 1 then none
    else if l.isBareText then some { s with block := none }
    else some { s.emitHere .text "" with block := none }

/-! ## The next character -/

/-- Reads a bracket, a brace or a comma. Within a scalar they count only where they may end it. -/
def flowMark (s : Scan) (c : Char) : Scan :=
  let filled := s.buffer.isFilled
  match c with
  | '{' =>
    if filled && !s.inFlow then s.gather c else { s.mark .openBrace "\x7b" with braces := s.braces + 1 }
  | '}' => if s.braces = 0 then s.gather c else { s.mark .closeBrace "\x7d" with braces := s.braces - 1 }
  | '[' =>
    if filled && !s.inFlow then s.gather c else { s.mark .openBracket "[" with brackets := s.brackets + 1 }
  | ']' =>
    if filled && s.brackets ≤ 0 then s.gather c else { s.mark .closeBracket "]" with brackets := s.brackets - 1 }
  | _ => if s.inFlow then s.mark .comma "," else s.gather c

/-- Reads a dash. -/
def dash? (s : Scan) : Option Scan :=
  if s.startsDocument then some { s.mark .documentStart "---" with margin := 0, indent := 0 }
  else if s.buffer.isFilled then
    if s.shift = .deeper then some { s.gather '-' with block := some (Block.ofDash s.column) }
    else some (s.gather '-')
  else if endsWord s.following then s.item?
  else some (s.gather '-')

/-- Reads a character that begins something longer, unless it is within a scalar. -/
def begin? (s : Scan) (c : Char) : Option Scan :=
  match c with
  | '|' | '>' => s.blockHead? c
  | '!' => if s.directing then some (s.gather c) else s.tag?
  | '%' => if s.indent = 0 then some { s.mark .directive "%" with directing := true } else some (s.gather c)
  | '?' =>
    if s.following.head?.any isBlank then some { s.mark .question "?" with margin := s.column }
    else some (s.gather c)
  | '&' => some { s.mark .anchor "&" with naming := true }
  | '*' => some { s.mark .reference "*" with naming := true }
  | '\'' | '"' => s.quoted? c
  | _ => none

/-- Reads the next character outside of block texts. -/
def char? (s : Scan) (c : Char) : Option Scan :=
  match c with
  | '{' | '}' | '[' | ']' | ',' => some (s.flowMark c)
  | '.' => some (if s.endsDocument then s.mark .documentEnd "..." else s.gather c)
  | '<' => some (if s.isMerge then s.merge else s.gather c)
  | '-' => s.dash?
  | ':' => if s.isColon then s.colon? else some (s.gather c)
  | '|' | '>' | '!' | '%' | '?' | '&' | '*' | '\'' | '"' | '@' | '\x60' =>
    if s.buffer.isFilled then some (s.gather c) else s.begin? c
  | '#' =>
    if s.buffer.isFilled && !s.previous.any fun p => isBlank p || isBreak p then some (s.gather c)
    else some s.comment
  | '\r' | '\n' => some (s.endLine c)
  | ' ' => some s.space
  | '\t' => s.tab?
  | _ => some (s.gather c)

/-- Reads the next character, and more if it begins something longer. -/
def next? (s : Scan) (c : Char) : Option Scan :=
  let s := s.indentLine c
  let s := if s.shift = .back then s.flush else s
  match s.block with
  | none => s.char? c
  | some b => if s.shift = .back then s.leaveBlock?.bind (·.char? c) else s.blockChar? b c

/-- Reads characters to the end; at most as many steps are made as there are characters. -/
def run? : Nat → Scan → Option Scan
  | 0, s => some s
  | steps + 1, s =>
    match s.rest with
    | [] => some s
    | c :: _ =>
      match s.next? c with
      | some s => run? steps s
      | none => none

end Scan

/-- The lexemes of a text without its comments, or nothing if it is malformed. -/
def Lexeme.scan? (s : String) : Option (List Lexeme) :=
  let cs := s.toList
  (Scan.run? cs.length { rest := cs }).map fun s =>
    (s.flush.lexemes.filter (·.kind ≠ .comment)).reverse

end Bracketing.Document
