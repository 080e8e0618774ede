import Bracketing.Config.Yaml.Cell

/-!
# Texts that keep their lines

A block text is introduced by a mark at the end of a line and holds the more indented lines that follow. After `|` it
keeps its line ends, after `>` single ones become blanks. A sign after the mark tells what becomes of the line ends at
the end of the text, and a digit how far the text is indented.
-/

namespace Bracketing.Config.Yaml

/-- What becomes of the line ends at the end of a block text. -/
inductive Chomp where
  /-- One is kept. -/
  | clip
  | strip
  | keep
  deriving DecidableEq, Repr

/-- What a block text's first line says about it. -/
structure BlockText where
  folded : Bool
  chomp : Chomp := .clip
  /-- The indentation of the text below its parent, if it is given. -/
  indent : Option Nat := none
  deriving DecidableEq, Repr

namespace BlockText

/-- The header after one more indicator. -/
def indicate (b : BlockText) (c : Char) : Option BlockText :=
  if c = '-' then some { b with chomp := .strip }
  else if c = '+' then some { b with chomp := .keep }
  else if '1' ≤ c && c ≤ '9' then some { b with indent := some (c.toNat - '0'.toNat) }
  else none

/-- The header of a block text, and the lines that follow it. -/
def header? : List Cell → Option (BlockText × List Cell)
  | [] => none
  | mark :: rest =>
    let indicators := rest.takeWhile fun c => !c.isBlank && !c.isBreak
    let after := rest.dropWhile fun c => !c.isBlank && !c.isBreak
    match (Cell.chars indicators).foldlM indicate { folded := mark.char = '>' } with
    | some b =>
      if Cell.endsLine after then some (b, (after.dropWhile fun c => !c.isBreak).drop 1) else none
    | none => none

/-- A line of a block text: its characters, and whether an end of line follows them. -/
structure Line where
  chars : List Char
  closed : Bool
  deriving DecidableEq, Repr

/-- The number of blanks a line begins with. -/
def Line.indent (l : Line) : Nat := (l.chars.takeWhile (· = ' ')).length

/-- The line holds nothing but blanks. -/
def Line.isEmpty (l : Line) : Bool := l.chars.all (· = ' ')

/-- The lines that are empty or indented further than the parent, and what follows them. -/
def gather (parent : Int) : Nat → List Cell → List Line × List Cell
  | 0, cs => ([], cs)
  | fuel + 1, cs =>
    if cs.isEmpty || Cell.isMarker '-' cs || Cell.isMarker '.' cs then ([], cs)
    else
      let chars := cs.takeWhile fun c => !c.isBreak
      let after := cs.dropWhile fun c => !c.isBreak
      let line : Line := ⟨Cell.chars chars, !after.isEmpty⟩
      if line.isEmpty || parent < line.indent then
        let (lines, rest) := gather parent fuel (after.drop 1)
        (line :: lines, rest)
      else ([], cs)

/-- The line ends and blanks between two lines of a folded text that are `breaks` line ends apart. -/
def joint (indented : Bool) (breaks : Nat) : String :=
  if indented then String.ofList (List.replicate breaks '\n')
  else if breaks = 1 then " "
  else String.ofList (List.replicate (breaks - 1) '\n')

/-- Lines joined as running text: `written` so far, `breaks` line ends after it, and whether its last line stood
further in than the text. -/
def fold (written : String) (indented : Bool) (breaks : Nat) : List (List Char) → String
  | [] => written
  | [] :: rest => fold written indented (breaks + 1) rest
  | line :: rest =>
    let further := line.head?.any Cell.isBlankChar
    fold (written ++ joint (indented || further) breaks ++ String.ofList line) further 1 rest

/-- The lines of a folded text as one. -/
def foldLines (lines : List (List Char)) : String :=
  let leading := (lines.takeWhile List.isEmpty).length
  match lines.drop leading with
  | [] => ""
  | line :: rest =>
    fold (String.ofList (List.replicate leading '\n' ++ line)) (line.head?.any Cell.isBlankChar) 1 rest

/-- The text of gathered lines. -/
def text (b : BlockText) (parent : Int) (lines : List Line) : String :=
  let indent := match b.indent with
    | some n => (max parent 0).toNat + n
    | none => ((lines.find? (!·.isEmpty)).map Line.indent).getD 0
  let trailing := (lines.reverse.takeWhile Line.isEmpty).length
  let body := lines.take (lines.length - trailing)
  let rows := body.map fun l => l.chars.drop indent
  let content := if b.folded then foldLines rows else "\n".intercalate (rows.map String.ofList)
  let closed := body.getLast?.any (·.closed)
  match b.chomp with
  | .strip => content
  | .clip => if closed then content ++ "\n" else content
  | .keep =>
    let ends := (lines.drop (lines.length - trailing)).filter (·.closed)
    (if closed then content ++ "\n" else content) ++ String.ofList (List.replicate ends.length '\n')

/-- A block text below a parent column, and what follows it. -/
def read? (parent : Int) (cs : List Cell) : Option (String × List Cell) :=
  match header? cs with
  | some (b, rest) =>
    let (lines, after) := gather parent (rest.length + 1) rest
    some (b.text parent lines, after)
  | none => none

end BlockText

end Bracketing.Config.Yaml
