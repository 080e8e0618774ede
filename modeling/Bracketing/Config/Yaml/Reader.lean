import Bracketing.Config.Yaml.Block
import Bracketing.Config.Yaml.Marks
import Bracketing.Config.Yaml.Quoted

/-!
# Configuration files in YAML

A value in flow style stands between brackets and braces; in block style indentation shows what belongs together. A key
stands on one line with its colon, or after a question mark. Only the first document of a file is read, and nothing is
said about what follows it.

`read?` gives what a file says, or nothing if it is malformed.
-/

namespace Bracketing.Config.Yaml

open Bracketing.Document

namespace Reader

/-- What a reader gives: a value and the rest of the file, or nothing if it is malformed. -/
abbrev Result (α : Type) := Option (α × List Cell)

/-! ## Scalars without quotes -/

/-- The character ends a scalar in flow style. -/
def closes (c : Char) : Bool := c = ',' || c = '[' || c = ']' || c = '{' || c = '}'

/-- The part on one line of a scalar without quotes, and what follows it. -/
def plainLine (flow : Bool) : List Cell → List Cell × List Cell
  | [] => ([], [])
  | c :: rest =>
    if c.isBreak || (flow && closes c.char) || (c.char = '#' && c.spaced) || (c.char = ':' && Cell.endsWord rest) then
      ([], c :: rest)
    else
      let (taken, after) := plainLine flow rest
      (c :: taken, after)

/-- The characters of a line without the blanks at its end. -/
def trimmed (cs : List Cell) : String :=
  String.ofList (Cell.chars (cs.reverse.dropWhile Cell.isBlank).reverse)

/-- The characters can begin a scalar without quotes. -/
def beginsPlain (flow : Bool) : List Cell → Bool
  | [] => false
  | c :: rest =>
    if c.char = '-' then !Cell.endsWord rest
    else if c.char = '?' || c.char = ':' then !flow && !Cell.endsWord rest
    else !(closes c.char || ['#', '&', '*', '!', '|', '>', '\'', '"', '%', '@', '\x60'].contains c.char)

/-- The further lines of a scalar without quotes after `written`. In block style each is indented further than the
parent. -/
def moreLines (flow : Bool) (parent : Int) : Nat → String → List Cell → Result String
  | 0, _, _ => none
  | fuel + 1, written, cs =>
    match cs with
    | [] => some (written, [])
    | c :: rest =>
      if !c.isBreak then some (written, cs)
      else
        let (n, after) := Quoted.skipBreaks 0 rest
        let (line, following) := plainLine flow after
        if Cell.endsDocument after || line.isEmpty || (!flow && column after ≤ parent) then some (written, cs)
        else
          let joint := if n = 0 then " " else String.ofList (List.replicate n '\n')
          moreLines flow parent fuel (written ++ joint ++ trimmed line) following
where
  /-- The column of the next cell. -/
  column (cs : List Cell) : Nat := (cs.head?.map (·.column)).getD 0

/-- A scalar without quotes, and what follows it. -/
def plain (flow : Bool) (parent : Int) (cs : List Cell) : Result String :=
  if beginsPlain flow cs then
    let (line, after) := plainLine flow cs
    moreLines flow parent (after.length + 1) (trimmed line) after
  else none

/-! ## Keys -/

/-- A reference by a name, and what follows it. -/
def reference? (cs : List Cell) : Option (Node × List Cell) :=
  (Marks.name? (cs.drop 1)).map fun (name, after) => (.reference name, after)

/-- A scalar on one line or a reference, and what follows it. -/
def word? (flow : Bool) (cs : List Cell) : Option (Node × List Cell) :=
  match cs with
  | [] => none
  | c :: _ =>
    if c.char = '"' || c.char = '\'' then (Quoted.read? cs).map fun (t, after) => (.scalar false t, after)
    else if c.char = '*' then reference? cs
    else if beginsPlain flow cs then
      let (line, after) := plainLine flow cs
      some (.scalar true (trimmed line), after)
    else none

/-- A key with its colon on one line, and what follows the colon. -/
def key? (flow : Bool) (cs : List Cell) : Option (Node × List Cell) := do
  let (marks, start) ← Marks.read? Cell.skipBlanks cs
  let (key, after) ← word? flow start
  let passed := cs.take (cs.length - after.length)
  match Cell.skipBlanks after with
  | c :: rest =>
    if c.char = ':' && (Cell.endsWord rest || flow) && !passed.any (·.isBreak) then some (marks.around key, rest)
    else none
  | [] => none

/-- A character that stands alone comes next. -/
def isAlone (mark : Char) : List Cell → Bool
  | c :: rest => c.char = mark && Cell.endsWord rest
  | [] => false

/-! ## Flow style -/

mutual

/-- A value in flow style. -/
def flow : Nat → List Cell → Option (Node × List Cell)
  | 0, _ => none
  | fuel + 1, cs => do
    let (marks, start) ← Marks.read? Cell.skipTrivia cs
    let (node, after) ← match start with
      | [] => none
      | c :: rest =>
        if c.char = '[' then flowItems fuel [] (Cell.skipTrivia rest)
        else if c.char = '{' then flowEntries fuel [] (Cell.skipTrivia rest)
        else if c.char = '"' || c.char = '\'' then
          (Quoted.read? start).map fun (t, after) => (.scalar false t, after)
        else if c.char = '*' then reference? start
        else if !marks.isEmpty && (c.char = ',' || c.char = ']' || c.char = '}') then some (.empty, start)
        else (plain true (-1) start).map fun (t, after) => (.scalar true t, after)
    some (marks.around node, after)

/-- The value after a colon in flow style, which may be missing. -/
def flowValue : Nat → List Cell → Option (Node × List Cell)
  | 0, _ => none
  | fuel + 1, cs =>
    match Cell.skipTrivia cs with
    | [] => none
    | c :: rest =>
      if c.char = ',' || c.char = ']' || c.char = '}' then some (.empty, c :: rest) else flow fuel (c :: rest)

/-- A key after a question mark, and its value if there is one. -/
def flowPair : Nat → List Cell → Option ((Node × Node) × List Cell)
  | 0, _ => none
  | fuel + 1, cs => do
    let start := Cell.skipTrivia cs
    let (k, after) ← if isAlone ':' start then some (.empty, start) else flowValue fuel start
    match Cell.skipTrivia after with
    | [] => none
    | c :: rest =>
      if c.char = ':' then (flowValue fuel rest).map fun (v, after) => ((k, v), after)
      else some ((k, .empty), c :: rest)

/-- The items of a list after those already read, up to its closing bracket. A key with its value is a mapping. -/
def flowItems : Nat → List Node → List Cell → Option (Node × List Cell)
  | 0, _, _ => none
  | _, _, [] => none
  | fuel + 1, items, c :: rest => do
    if c.char = ']' then some (.list items, rest)
    else
      let (node, after) ←
        if isAlone '?' (c :: rest) then (flowPair fuel rest).map fun (e, after) => (Node.mapping [e], after)
        else match key? true (c :: rest) with
          | some (k, after) => (flowValue fuel after).map fun (v, after) => (Node.mapping [(k, v)], after)
          | none => flow fuel (c :: rest)
      match Cell.skipTrivia after with
      | [] => none
      | e :: more =>
        if e.char = ',' then flowItems fuel (items ++ [node]) (Cell.skipTrivia more)
        else if e.char = ']' then some (.list (items ++ [node]), more)
        else none

/-- The entries of a mapping after those already read, up to its closing brace. A key without a colon has no value. -/
def flowEntries : Nat → List (Node × Node) → List Cell → Option (Node × List Cell)
  | 0, _, _ => none
  | _, _, [] => none
  | fuel + 1, entries, c :: rest => do
    if c.char = '}' then some (.mapping entries, rest)
    else
      let (entry, after) ←
        if isAlone '?' (c :: rest) then flowPair fuel rest
        else match key? true (c :: rest) with
          | some (k, after) => (flowValue fuel after).map fun (v, after) => ((k, v), after)
          | none => (flow fuel (c :: rest)).map fun (k, after) => ((k, .empty), after)
      match Cell.skipTrivia after with
      | [] => none
      | e :: more =>
        if e.char = ',' then flowEntries fuel (entries ++ [entry]) (Cell.skipTrivia more)
        else if e.char = '}' then some (.mapping (entries ++ [entry]), more)
        else none

end

/-! ## Block style -/

/-- The column of the next cell. -/
def column (cs : List Cell) : Nat := (cs.head?.map (·.column)).getD 0

/-- The cells begin an item of a block list. -/
def isDash (cs : List Cell) : Bool := isAlone '-' cs

/-- The cells begin an entry of a block mapping. -/
def isEntry (cs : List Cell) : Bool := isAlone '?' cs || (key? false cs).isSome

/-- A value that is not a block list or mapping, below a parent column. -/
def inline (parent : Int) (cs : List Cell) : Option (Node × List Cell) := do
  let first ← cs.head?
  if first.char = '|' || first.char = '>' then
    (BlockText.read? parent cs).map fun (t, rest) => (.scalar false t, rest)
  else
    let (node, rest) ←
      if ['[', '{', '"', '\'', '*'].contains first.char then flow (8 * cs.length + 8) cs
      else (plain false parent cs).map fun (t, rest) => (.scalar true t, rest)
    if Cell.endsLine rest then some (node, rest) else none

/-- The cells behind a dash or a question mark, where no tab may come next. -/
def behind? (cs : List Cell) : Option (List Cell) :=
  let rest := cs.drop 1
  if (rest.takeWhile Cell.isBlank).any (·.char = '\t') then none else some rest

mutual

/-- A value in block style, below a parent column. -/
def block (parent : Int) : Nat → List Cell → Option (Node × List Cell)
  | 0, _ => none
  | fuel + 1, cs =>
    if isDash cs then blockItems (column cs) fuel [] cs
    else if isEntry cs then blockEntries (column cs) fuel [] cs
    else marked parent false fuel cs

/-- A value with its marks, which does not begin as a block list or mapping on this line. -/
def marked (parent : Int) (dashes : Bool) : Nat → List Cell → Option (Node × List Cell)
  | 0, _ => none
  | fuel + 1, cs => do
    let (marks, rest) ← Marks.read? Cell.skipBlanks cs
    let (node, after) ← if Cell.endsLine rest then below parent dashes fuel rest else inline parent rest
    some (marks.around node, after)

/-- A value on the lines below, which may be missing. With `dashes` a list may stand at the parent column. -/
def below (parent : Int) (dashes : Bool) : Nat → List Cell → Option (Node × List Cell)
  | 0, _ => none
  | fuel + 1, cs => do
    let next ← Cell.skipLines? cs
    if Cell.endsDocument next || column next < parent || (column next = parent && !(dashes && isDash next)) then
      some (.empty, next)
    else block parent fuel next

/-- A value behind a dash or a question mark, which may begin a block list or mapping on the same line. -/
def nested (parent : Int) : Nat → List Cell → Option (Node × List Cell)
  | 0, _ => none
  | fuel + 1, cs => do
    let rest ← behind? cs
    if Cell.endsLine rest then below parent false fuel rest else block parent fuel (Cell.skipBlanks rest)

/-- The items of a block list at a column, after those already read. -/
def blockItems (col : Nat) : Nat → List Node → List Cell → Option (Node × List Cell)
  | 0, _, _ => none
  | fuel + 1, items, cs => do
    let (node, rest) ← nested col fuel cs
    let after ← Cell.skipLines? rest
    if Cell.endsDocument after || column after < col || (column after = col && !isDash after) then
      some (.list (items ++ [node]), after)
    else if column after = col then blockItems col fuel (items ++ [node]) after
    else none

/-- An entry of a block mapping at a column. -/
def blockEntry (col : Nat) : Nat → List Cell → Option ((Node × Node) × List Cell)
  | 0, _ => none
  | fuel + 1, cs => do
    if isAlone '?' cs then
      let (k, rest) ← nested col fuel cs
      let after ← Cell.skipLines? rest
      if column after = col && isAlone ':' after then
        (nested col fuel after).map fun (v, rest) => ((k, v), rest)
      else some ((k, .empty), after)
    else
      let (k, value) ← key? false cs
      let (v, rest) ←
        if Cell.endsLine value then below col true fuel value else marked col true fuel (Cell.skipBlanks value)
      some ((k, v), rest)

/-- The entries of a block mapping at a column, after those already read. -/
def blockEntries (col : Nat) : Nat → List (Node × Node) → List Cell → Option (Node × List Cell)
  | 0, _, _ => none
  | fuel + 1, entries, cs => do
    let (entry, rest) ← blockEntry col fuel cs
    let after ← Cell.skipLines? rest
    if Cell.endsDocument after || column after < col then some (.mapping (entries ++ [entry]), after)
    else if column after = col then blockEntries col fuel (entries ++ [entry]) after
    else none

end

/-- The value of a document. Behind a value in flow style anything may follow but a colon. On the line that begins a
document no block list or mapping may stand. -/
def root (begun : Bool) (cs : List Cell) : Option Node :=
  let steps := 8 * cs.length + 8
  let isFlow := cs.head?.any fun c => c.char = '[' || c.char = '{'
  if isFlow then
    match flow steps cs with
    | some (node, rest) => if (Cell.skipBlanks rest).head?.any (·.char = ':') then none else some node
    | none => none
  else (if begun then marked (-1) false steps cs else block (-1) steps cs).map Prod.fst

/-- The cells from the next line that does not begin with a percent sign. -/
def skipDirectives : Nat → List Cell → List Cell
  | 0, cs => cs
  | fuel + 1, cs =>
    if cs.head?.any (fun c => c.column = 0 && c.char = '%') then
      skipDirectives fuel ((cs.dropWhile fun c => !c.isBreak).drop 1)
    else cs

/-- The first document of a file, which may be empty. -/
def document? (cs : List Cell) : Option Node := do
  let isDirective := cs.head?.any (·.char = '%')
  let cs ← if isDirective then Cell.skipLines? (skipDirectives cs.length cs) else some cs
  let isBegun := Cell.isMarker '-' cs
  if isDirective && !isBegun then none
  else
    let rest := if isBegun then cs.drop 3 else cs
    let next ← Cell.skipLines? rest
    if Cell.endsDocument next then some .empty else root (isBegun && !Cell.endsLine rest) next

end Reader

/-- What a configuration file says, or nothing if it is malformed. -/
def read? (s : String) : Option Datum := do
  let node ← Reader.document? (← Cell.skipLines? (← Cell.ofText? s))
  node.datum?

end Bracketing.Config.Yaml
