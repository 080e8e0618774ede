import Bracketing.Document.Lexeme.Scan

/-!
# Clauses

Lexemes that belong together make a clause: a key with its colon and perhaps with the value on the same line, a block
text with its header, a name or tag with the value it is given to. The clauses of a text fall into documents.

`Clause.documents?` gives the documents of a text's lexemes, or nothing if they do not fit together.
-/

namespace Bracketing.Document

/-- A lexeme, or several that belong together. -/
inductive Clause where
  | single (l : Lexeme)
  /-- A block text: its header, and its lines if there are any. -/
  | block (head : Lexeme) (text : Option Lexeme)
  /-- A name, and the value on its line if it is a scalar. -/
  | anchor (mark : Lexeme) (name : Clause) (value : Option Clause)
  | reference (mark : Lexeme) (name : Clause)
  /-- A tag with the scalar on its line. -/
  | tagged (tag : Lexeme) (value : Clause)
  /-- A key after a question mark or before a colon. -/
  | key (question : Option Lexeme) (name : Clause) (colon : Option Lexeme)
  /-- A key with the scalar on its line. -/
  | pair (key : Clause) (value : Clause)
  deriving Inhabited, Repr

namespace Clause

/-- The first lexeme. -/
def first : Clause → Lexeme
  | single l => l
  | block head _ => head
  | anchor mark _ _ => mark
  | reference mark _ => mark
  | tagged tag _ => tag
  | key (some question) _ _ => question
  | key none name _ => first name
  | pair k _ => first k

/-- The kind of the first lexeme. -/
def kind (c : Clause) : Lexeme.Kind := c.first.kind

/-- The line where the clause starts. -/
def line (c : Clause) : Nat := c.first.line

/-- The column where the clause starts. -/
def column (c : Clause) : Nat := c.first.column

/-- The clause is a single lexeme of a kind. -/
def isSingle (c : Clause) (k : Lexeme.Kind) : Bool :=
  match c with
  | single l => l.kind = k
  | _ => false

/-- The clause is a key, with or without a value. -/
def isKey : Clause → Bool
  | key .. | pair .. => true
  | _ => false

/-- The clause is a name that still needs its value. -/
def isBareAnchor : Clause → Bool
  | anchor _ _ none => true
  | _ => false

/-- The clause is a scalar, perhaps with a name. -/
def isScalar (c : Clause) : Bool :=
  !c.isKey &&
    match c.kind with
    | .plain | .text | .quoted | .blockHead | .anchor | .reference => true
    | _ => false

/-- The clause can stand where a key is expected: a key or a brace. -/
def isEntry (c : Clause) : Bool := c.isKey || c.isSingle .openBrace || c.isSingle .closeBrace

/-- The clause ends an entry within braces. -/
def endsEntry (c : Clause) : Bool := c.isSingle .closeBrace || c.isSingle .comma

/-! ## Putting clauses together -/

/-- Block texts with their headers. -/
def joinBlocks : List Lexeme → List Clause
  | [] => []
  | [l] => if l.kind = .blockHead then [block l none] else [single l]
  | l :: m :: rest =>
    if l.kind = .blockHead then block l (some m) :: joinBlocks rest else single l :: joinBlocks (m :: rest)

/-- Names and the values they stand for or are given to. A name has to be followed by something. -/
def joinNames : List Clause → Option (List Clause)
  | [] => some []
  | c :: rest =>
    if c.isSingle .anchor then
      match rest with
      | name :: value :: rest =>
        if value.isSingle .dash && c.line = value.line then none
        else if value.isScalar && c.line = value.line then
          (joinNames rest).map (anchor c.first name (some value) :: ·)
        else (joinNames (value :: rest)).map (anchor c.first name none :: ·)
      | _ => none
    else if c.isSingle .reference then
      match rest with
      | name :: rest => (joinNames rest).map (reference c.first name :: ·)
      | [] => none
    else (joinNames rest).map (c :: ·)

/-- The tags of scalars. -/
def scalarTags : List String := ["!!int", "!!float", "!!str", "!!binary", "!!timestamp", "!!bool", "!!null"]

/-- The tag belongs to the clause after it on its line. -/
def takesTag (tag : Lexeme) (c : Clause) : Bool :=
  tag.line = c.line && !c.isBareAnchor &&
    if tag.text.startsWith "!!" then scalarTags.contains tag.text && c.isScalar
    else !(c.isSingle .openBrace || c.isSingle .closeBrace || c.isSingle .openBracket || c.isSingle .dash)

/-- Tags with the scalars on their lines. -/
def joinTags : List Clause → List Clause
  | [] => []
  | [c] => [c]
  | c :: d :: rest =>
    if c.isSingle .tag && takesTag c.first d then tagged c.first d :: joinTags rest else c :: joinTags (d :: rest)

/-- Names with the tagged scalars on their lines. -/
def joinNamedTags : List Clause → List Clause
  | [] => []
  | [c] => [c]
  | c :: d :: rest =>
    match c, d with
    | anchor mark name none, tagged .. =>
      if mark.line = d.line then anchor mark name (some d) :: joinNamedTags rest else c :: joinNamedTags (d :: rest)
    | _, _ => c :: joinNamedTags (d :: rest)

/-- Question marks with the clauses after them. -/
def joinQuestions : List Clause → Option (List Clause)
  | [] => some []
  | c :: rest =>
    if c.isSingle .question then
      match rest with
      | name :: rest => (joinQuestions rest).map (key c.first name none :: ·)
      | [] => none
    else (joinQuestions rest).map (c :: ·)

/-- The clause before a colon as a key. -/
def withColon (c : Clause) (colon : Lexeme) : Clause :=
  match c with
  | key question name none => key question name (some colon)
  | c => key none c (some colon)

/-- Colons with the clauses before them. -/
def joinColons : List Clause → Option (List Clause)
  | [] => some []
  | [c] => if c.isSingle .colon then none else some [c]
  | c :: d :: rest =>
    if c.isSingle .colon then none
    else if d.isSingle .colon then
      if c.first.isMark then none else (joinColons rest).map (c.withColon d.first :: ·)
    else (joinColons (d :: rest)).map (c :: ·)

/-- Keys with the scalars on their lines. -/
def joinPairs : List Clause → List Clause
  | [] => []
  | [c] => [c]
  | c :: d :: rest =>
    let joins := c.isKey && c.line = d.line && !d.isBareAnchor &&
      match d with
      | tagged .. => true
      | d => d.isScalar
    if joins then pair c d :: joinPairs rest else c :: joinPairs (d :: rest)

/-! ## Documents -/

/-- The versions that a directive may ask for. -/
def versions : List String := ["1.0", "1.1", "1.2", "1.3"]

/-- The directive of a name with values is one that can be followed. -/
def isKnownDirective (name : Lexeme) (values : List Clause) : Bool :=
  if name.text = "YAML" then
    match values with
    | [v] => versions.contains v.first.text
    | _ => false
  else true

/-- Without directives, in at most as many steps as are given. Each directive has to be followed by the start of a
document. -/
def dropDirectives : Nat → List Clause → Option (List Clause)
  | _, [] => some []
  | 0, _ => none
  | fuel + 1, c :: rest =>
    if c.isSingle .directive then
      match rest with
      | name :: rest =>
        let onLine (d : Clause) : Bool := d.line = c.line
        let values := rest.takeWhile onLine
        let after := rest.dropWhile onLine
        if isKnownDirective name.first values && after.head?.any (·.isSingle .documentStart) then
          dropDirectives fuel after
        else none
      | [] => none
    else (dropDirectives fuel rest).map (c :: ·)

/-- The document of the clauses gathered so far, of which the last comes first, before further documents. -/
def withDocument (gathered : List Clause) (rest : List (List Clause)) : List (List Clause) :=
  if gathered.isEmpty then rest else gathered.reverse :: rest

/-- The documents among clauses, after those gathered for the first one, of which the last comes first. The clauses of a
document come without its signs. -/
def splitDocuments (gathered : List Clause) : List Clause → Option (List (List Clause))
  | [] => some (withDocument gathered [])
  | c :: rest =>
    if c.isSingle .documentStart then
      match rest with
      | [] => some (withDocument gathered [])
      | d :: _ =>
        if d.isSingle .documentStart then some (withDocument gathered [])
        else if d.isKey && d.line = c.line then none
        else (splitDocuments [] rest).map (withDocument gathered)
    else if c.isSingle .documentEnd then
      match rest with
      | [] => some (withDocument gathered [])
      | d :: _ => if d.isScalar then none else (splitDocuments [] rest).map (withDocument gathered)
    else splitDocuments (c :: gathered) rest

/-- The documents that lexemes make, as far as they are not empty. -/
def documents? (ls : List Lexeme) : Option (List (List Clause)) := do
  let cs ← joinNames (joinBlocks ls)
  let cs ← joinColons (← joinQuestions (joinNamedTags (joinTags cs)))
  let cs ← dropDirectives cs.length (joinPairs cs)
  splitDocuments [] cs

end Clause

end Bracketing.Document
