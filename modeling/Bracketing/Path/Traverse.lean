import Bracketing.Path.Visit

/-!
# Traversals

The ways to move a path: down through names (`call`), over the elements of a list (`each`, `map`) and over all nodes
below the current value (`walk`). Each leaves the path as it found it, however the visit ends.
-/

namespace Bracketing

open Bracketing.Tree

namespace Cursor

variable {σ ε α : Type} (c : Cursor σ)

/-- Runs a visit and then takes the path back to the length that it had before. -/
def restoring (v : Visit σ ε α) : Visit σ ε α := fun s =>
  let (out, t) := v s
  (out, c.setPath t ((c.path t).cut (c.path s).length))

/-- Moves the path to a member. -/
def push (name value : Value) : Visit σ ε Unit :=
  Visit.change fun s => c.setPath s ((c.path s).push name value)

/-- Moves the path down through names from a value, to the value reached. -/
def descendFrom (v : Value) : List Value → Visit σ ε Value
  | [] => Visit.give v
  | name :: rest => do
    let w := Path.resolve (c.heap (← Visit.state)) v name
    c.push name w
    descendFrom w rest

/-- Moves the path down through names from its tip, to the value reached. -/
def descend (names : List Value) : Visit σ ε Value := do
  match (c.path (← Visit.state)).stack with
  | v :: _ => c.descendFrom v names
  | [] => Visit.stop .missing

/-- Runs a visit at the value reached through names. -/
def call (names : List Value) (v : Visit σ ε α) : Visit σ ε α :=
  c.restoring do
    let _ ← c.descend names
    v

/-- Moves the path down through names to a list. -/
def descendList (names : List Value) : Visit σ ε ListId := do
  match ← c.descend names with
  | .list l => return l
  | v => Visit.fail (.notList (c.path (← Visit.state)).name v.typeName)

/-- Runs a visit at an element of a list, as the list is at that time; a hole is passed over. -/
def atElement (l : ListId) (v : Visit σ ε α) (i : Nat) : Visit σ ε (Option α) := do
  match (((c.heap (← Visit.state)).list l)[i]?).getD .null with
  | .null => return none
  | e => c.restoring do
    c.push (.index i) e
    return some (← v)

/-- The indices of a list. -/
def indices (l : ListId) : Visit σ ε (List Nat) := do
  return List.range ((c.heap (← Visit.state)).list l).length

/-- Runs a visit at every element of the list reached through names. -/
def each (names : List Value) (v : Visit σ ε Unit) : Visit σ ε Unit :=
  c.restoring do
    let l ← c.descendList names
    Visit.forEach (fun i => do let _ ← c.atElement l v i) (← c.indices l)

/-- Runs a visit at every element of the list reached through names and gives each result its element's place. -/
def map (names : List Value) (v : Visit σ ε α) : Visit σ ε (List (Option α)) :=
  c.restoring do
    let l ← c.descendList names
    Visit.collect (c.atElement l v) (← c.indices l)

/-- Runs `below` at the field of a node, if the field is made for nodes. -/
def atField (n : NodeId) (below : Visit σ ε Unit) (key : String) : Visit σ ε Unit := do
  match (c.heap (← Visit.state)).get n key with
  | .node _ | .noNode | .list _ => c.call [.str key] below
  | _ => return ()

/-- The fields of a node value. -/
def fieldsOf (v : Value) : Visit σ ε (List (NodeId × String)) := do
  match v with
  | .node n => return ((c.heap (← Visit.state)).node n).fields.keys.map (n, ·)
  | _ => return []

/-- Visits the nodes below the tip, at most `depth` values deep. -/
def walkWithin (v : Visit σ ε Unit) : Nat → Visit σ ε Unit
  | 0 => Visit.stop .endless
  | depth + 1 => do
    let s ← Visit.state
    let tip ← Visit.answer (c.path s).value
    let met ← Visit.answer ((c.path s).isDuplicate (c.heap s))
    match tip with
    | .node _ | .noNode =>
      if (c.path s).grammar.isNode (c.heap s) tip && !met then
        if ← v.unlessSkipped then
          Visit.forEach (fun f => c.atField f.1 (walkWithin v depth) f.2) (← c.fieldsOf tip)
    | .list _ => if !met then c.each [] (walkWithin v depth)
    | _ => return ()

/-- Visits the current value, if it is a node, and every node below it, a node before its fields. A value that has
been met on the way is not entered again. -/
def walk (v : Visit σ ε Unit) : Visit σ ε Unit := fun s =>
  c.walkWithin v ((c.heap s).extent + 1 + c.reserve) s

end Cursor

end Bracketing
