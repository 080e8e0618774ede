import Bracketing.Document.Clause

/-!
# What clauses say

A value is a scalar, a list or a mapping. Lists and mappings are written in flow style, between brackets and braces, or
in block style, where the items of a list begin with dashes in one column and the entries of a mapping with keys in one
column. A mapping that has a key twice is malformed; keys are compared as they are written.

`Datum.read?` gives what the first document of a text says. All documents of the text have to be well formed.
-/

namespace Bracketing.Document

namespace Clause

/-- Reading a document: the clauses that are left, and the values that have been given names, the latest first. -/
structure Reading where
  clauses : List Clause
  named : List (String × Datum) := []

/-- A part of reading a document, which may find it malformed. -/
abbrev Read := StateT Reading Option

namespace Read

/-- The document is malformed. -/
def malformed {α : Type} : Read α := fun _ => none

/-- The document is malformed unless the condition holds. -/
def require (b : Bool) : Read Unit := if b then pure () else malformed

/-- The next clause, if there is one. -/
def peek : Read (Option Clause) := fun r => some (r.clauses.head?, r)

/-- The clause after the next one, if there is one. -/
def peekSecond : Read (Option Clause) := fun r => some ((r.clauses.drop 1).head?, r)

/-- Passes over the next clause. -/
def skip : Read Unit := fun r => some ((), { r with clauses := r.clauses.drop 1 })

/-- Gives a value a name. -/
def call (name : String) (d : Datum) : Read Unit := fun r => some ((), { r with named := (name, d) :: r.named })

/-- The value that a name stands for. -/
def find (name : String) : Read Datum := fun r => (r.named.lookup name).map (·, r)

end Read

open Read

/-! ## Scalars -/

/-- The value of a scalar with a tag. -/
def retag (tag : String) (d : Datum) : Option Datum :=
  match tag with
  | "!!null" => some .null
  | "!!str" => some (match d with
    | .null => .str ""
    | d => .str d.inner)
  | "!!int" => some (match Scalar.resolve d.inner with
    | .unsigned n => .signed n.toInt64
    | .signed i => .signed i
    | _ => .signed 0)
  | "!!float" => some (match d.toDouble?, Scalar.resolve d.inner with
    | some x, _ => .float x
    | none, e => .float ((e.toDouble?).getD (Number.Double.zero false)))
  | "!!bool" => match d.inner.toLower with
    | "1" | "t" | "true" | "yes" => some (.bool true)
    | "0" | "f" | "false" | "no" => some (.bool false)
    | _ => none
  | _ => some d

/-- The text of a name. -/
def nameText? : Clause → Option String
  | single l => if l.datum?.isSome then some l.text else none
  | _ => none

/-- The value of a clause that is a scalar. -/
def scalar : Clause → Read Datum
  | single l =>
    match l.datum? with
    | some d => pure d
    | none => malformed
  | block _ none => pure (.str "")
  | block _ (some l) =>
    match l.datum? with
    | some (.str s) => pure (.str s)
    | _ => malformed
  | anchor _ name (some value) =>
    match nameText? name with
    | some name => do
      call name .null
      let d ← scalar value
      call name d
      pure d
    | none => malformed
  | reference _ name =>
    match nameText? name with
    | some name => find name
    | none => malformed
  | tagged tag value => do
    match retag tag.text (← scalar value) with
    | some d => pure d
    | none => malformed
  | _ => malformed

/-! ## Keys -/

/-- The key as it is written. -/
def spelling : Clause → String
  | single l => l.text
  | block head _ => head.text
  | anchor _ _ (some value) => spelling value
  | tagged _ value => spelling value
  | _ => ""

/-- The key stands on one line. Between brackets or braces a key without quotes only has to end on the line of its
colon. -/
def isOnLine (flow : Bool) (name : Lexeme) (colon : Option Lexeme) : Bool :=
  if flow then !name.isBareText || colon.all fun c => name.line + name.breaks = c.line
  else !(name.isBareText || name.kind = .quoted) || name.breaks = 0

/-- The entries of a mapping that has been read so far, the last one first, with the spelling of their keys. -/
structure Entries where
  entries : List (String × Datum) := []
  spellings : List String := []

/-- The entries in order. -/
def Entries.datum (e : Entries) : Datum := .mapping e.entries.reverse

/-- The name of a key that is not among the entries, and the entries with its spelling. -/
def keyName (flow : Bool) (e : Entries) : Clause → Read (String × Entries)
  | key question name colon => do
    let d ← scalar name
    let spelling := spelling name
    require (!e.spellings.contains spelling)
    require (question.isSome || isOnLine flow name.first colon)
    pure (d.keyText, { e with spellings := spelling :: e.spellings })
  | _ => malformed

/-- The entries that a value brings along. -/
def merged? : Datum → Option (List (String × Datum))
  | .mapping es => some es
  | .null => some []
  | .list items => items.foldlM (fun es d => (Datum.entries? d).map (es ++ ·)) []
  | _ => none

/-- The entries with one more. -/
def addEntry (e : Entries) (k : Clause) (name : String) (d : Datum) : Read Entries :=
  match k with
  | key none (single l) _ =>
    if l.kind = .merge then
      match merged? d with
      | some es => pure { e with entries := es.reverse ++ e.entries }
      | none => malformed
    else pure { e with entries := (name, d) :: e.entries }
  | _ => pure { e with entries := (name, d) :: e.entries }

/-! ## Values -/

/-- A name is left without a value before the clause that follows it. -/
def anchoredNull (c : Clause) : Read Datum :=
  match c with
  | anchor _ name _ =>
    match nameText? name with
    | some name => do
      skip
      call name .null
      pure .null
    | none => malformed
  | _ => malformed

mutual

/-- The next value. Between brackets or braces `flow` holds. -/
def value (flow : Bool) : Nat → Read Datum
  | 0 => malformed
  | fuel + 1 => do
    match ← peek with
    | none => malformed
    | some c =>
      match c with
      | .key .. | .pair .. => return (← entries flow fuel c.column {}).datum
      | .anchor _ name none =>
        match nameText? name with
        | none => malformed
        | some name =>
          skip
          call name .null
          require (!(← peek).any fun d => d.kind = .anchor)
          let d ← value flow fuel
          call name d
          return d
      | .single l =>
        match l.kind with
        | .openBrace =>
          skip
          flowEntries fuel true {}
        | .openBracket =>
          skip
          flowItems fuel true []
        | .dash => items flow fuel c.column []
        | .tag =>
          skip
          taggedValue flow fuel l
        | _ =>
          let d ← scalar c
          skip
          return d
      | c =>
        let d ← scalar c
        skip
        return d
  termination_by structural fuel => fuel

/-- The value after a tag; without one the tag is given to nothing. -/
def taggedValue (flow : Bool) : Nat → Lexeme → Read Datum
  | 0, _ => malformed
  | fuel + 1, tag => do
    match ← peek with
    | none => return .null
    | some c =>
      require (!(["!!map", "!!set"].contains tag.text) || c.isEntry)
      require (!(["!!seq", "!!omap"].contains tag.text) || c.isSingle .openBracket || c.isSingle .dash)
      require (!scalarTags.contains tag.text || c.isScalar)
      match retag tag.text (← value flow fuel) with
      | some d => return d
      | none => malformed
  termination_by structural fuel _ => fuel

/-- The entries of a block mapping in a column, after those already read. -/
def entries (flow : Bool) : Nat → Nat → Entries → Read Entries
  | 0, _, _ => malformed
  | fuel + 1, column, e => do
    match ← peek with
    | none => return e
    | some c =>
      if c.column ≠ column || (flow && c.isSingle .closeBracket) then return e
      else if c.isSingle .closeBrace then
        skip
        return e
      else
        match c with
        | .pair k v =>
          let (name, e) ← keyName flow e k
          let d ← scalar v
          skip
          let e ← addEntry e k name d
          require ((← peek).all fun d =>
            d.column ≤ column || (flow && (d.isSingle .comma || d.isSingle .closeBracket)))
          entries flow fuel column e
        | .key .. =>
          let (name, e) ← keyName flow e c
          skip
          require (!(← peek).any fun d => d.isSingle .dash && d.line = c.line)
          let d ← entryValue flow fuel column c.line
          entries flow fuel column (← addEntry e c name d)
        | _ => malformed
  termination_by structural fuel _ _ => fuel

/-- The value of a key in block style, which stands in the given column and line. -/
def entryValue (flow : Bool) : Nat → Nat → Nat → Read Datum
  | 0, _, _ => malformed
  | fuel + 1, column, line => do
    match ← peek with
    | none => return .null
    | some c =>
      let after ← peekSecond
      let afterColumn := (after.map Clause.column).getD 0
      if c.column ≠ column && c.line = line && c.isKey then malformed
      else if c.column = column && c.isEntry then return .null
      else if c.line = line && c.isBareAnchor && afterColumn = column && after.any isEntry then anchoredNull c
      else if c.column ≤ column && (c.isBareAnchor || c.kind = .tag) then malformed
      else if c.column < column then return .null
      else if c.line = line && c.isBareAnchor && afterColumn < column then anchoredNull c
      else value flow fuel
  termination_by structural fuel _ _ => fuel

/-- The items of a block list in a column, after those already read, of which the last comes first. -/
def items (flow : Bool) : Nat → Nat → List Datum → Read Datum
  | 0, _, _ => malformed
  | fuel + 1, column, ds => do
    match ← peek with
    | some c =>
      if c.isSingle .dash && c.column = column then
        skip
        let d ← itemValue flow fuel column c.line
        items flow fuel column (d :: ds)
      else return .list ds.reverse
    | none => return .list ds.reverse
  termination_by structural fuel _ _ => fuel

/-- The value after a dash, which stands in the given column and line. -/
def itemValue (flow : Bool) : Nat → Nat → Nat → Read Datum
  | 0, _, _ => malformed
  | fuel + 1, column, line => do
    match ← peek with
    | none => return .null
    | some c =>
      let after ← peekSecond
      let afterColumn := (after.map Clause.column).getD 0
      if c.column = column && c.isSingle .dash then return .null
      else if c.line = line && c.isBareAnchor && afterColumn = column && after.any (·.isSingle .dash) then
        anchoredNull c
      else if c.column ≤ column && (c.isBareAnchor || c.kind = .tag) then malformed
      else if c.column < column then return .null
      else if c.line = line && c.isBareAnchor && afterColumn < column then anchoredNull c
      else value flow fuel
  termination_by structural fuel _ _ => fuel

/-- The entries of a mapping up to its closing brace, after those already read. Before the first entry a comma may be
left out. -/
def flowEntries : Nat → Bool → Entries → Read Datum
  | 0, _, _ => malformed
  | fuel + 1, isFirst, e => do
    match ← peek with
    | none => malformed
    | some c =>
      if c.isSingle .closeBrace then
        skip
        return e.datum
      else
        require (isFirst || c.isSingle .comma)
        if c.isSingle .comma then skip
        flowEntry fuel e
  termination_by structural fuel _ _ => fuel

/-- An entry of a mapping between braces, and those that follow it. -/
def flowEntry : Nat → Entries → Read Datum
  | 0, _ => malformed
  | fuel + 1, e => do
    match ← peek with
    | none => malformed
    | some c =>
      if c.isSingle .closeBrace then
        skip
        return e.datum
      else
        let closed := (← peekSecond).any endsEntry
        match c with
        | .pair k v =>
          let (name, e) ← keyName true e k
          let d ← scalar v
          skip
          flowEntries fuel false (← addEntry e k name d)
        | .key .. =>
          let (name, e) ← keyName true e c
          skip
          let d ← if closed then pure .null else value true fuel
          flowEntries fuel false (← addEntry e c name d)
        | _ =>
          require closed
          let d ← scalar c
          skip
          flowEntries fuel false { e with entries := (d.keyText, .null) :: e.entries }
  termination_by structural fuel _ => fuel

/-- The items of a list up to its closing bracket, after those already read, of which the last comes first. -/
def flowItems : Nat → Bool → List Datum → Read Datum
  | 0, _, _ => malformed
  | fuel + 1, isFirst, ds => do
    match ← peek with
    | none => malformed
    | some c =>
      if c.isSingle .closeBracket then
        skip
        return .list ds.reverse
      else
        require (isFirst ≠ c.isSingle .comma)
        if c.isSingle .comma then skip
        if (← peek).any (·.isSingle .closeBracket) then
          skip
          return .list ds.reverse
        else
          let d ← value true fuel
          flowItems fuel false (d :: ds)
  termination_by structural fuel _ _ => fuel

end

/-- What a document says; nothing may be left over. -/
def document : Read Datum := fun r =>
  match value false (8 * r.clauses.length + 8) r with
  | some (d, r) => if r.clauses.isEmpty then some (d, r) else none
  | none => none

/-- What documents say, where a name may stand for a value of an earlier document. -/
def documents (named : List (String × Datum)) : List (List Clause) → Option (List Datum)
  | [] => some []
  | cs :: rest => do
    let (d, r) ← document ⟨cs, named⟩
    return d :: (← documents r.named rest)

end Clause

/-- What the first document of a text says, or nothing if the text is malformed. -/
def Datum.read? (s : String) : Option Datum := do
  let ls ← Lexeme.scan? s
  let ds ← Clause.documents [] (← Clause.documents? ls)
  return ds.head?.getD .null

end Bracketing.Document
