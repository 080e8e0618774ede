import Bracketing.Path.Basic
import Bracketing.Verdict.Site

/-!
# Leading position

A statement must not begin with certain tokens, nor must the body of a concise arrow function. Whether a node prints
the first token of a statement is found by going up the path as long as every node is the leftmost part of its parent.

* `leftmostSlot?` names the field that a node prints first;
* `passage` judges one step up;
* `Climb` is what going up keeps in mind, and `Climb.leads` goes up until a step decides.
-/

namespace Bracketing

open Bracketing.Tree

/-- The field whose value a node always prints first, if there is one. -/
def leftmostSlot? (h : Heap) (n : NodeId) : Option String :=
  match h.kind (some n) with
  | .assignment | .binary | .logical => some "left"
  | .call | .optionalCall => some "callee"
  | .member | .optionalMember => some "object"
  | .conditional => some "test"
  | .taggedTemplate => some "tag"
  | .tsAs | .tsSatisfies | .tsNonNull => some "expression"
  | .unary | .update => if h.flagAt n "prefix" then none else some "argument"
  | _ => none

/-- What a step from a node to its parent says about leading position. -/
inductive Passage where
  /-- The node is the leftmost part of its parent: go on from there. -/
  | open
  /-- The node is the expression of a statement. -/
  | statement
  /-- The node is the body of an arrow function. -/
  | body
  /-- Something is printed before the node. -/
  | closed
  deriving DecidableEq, Repr

/-- The step from a child, reached by `name`, to its parent, which `next` follows on the path. -/
def passage (h : Heap) (child : NodeId) (name : Value) (parent : NodeId) (next : Option Value) :
    Except Stop Passage :=
  if h.kind (some parent) = .expressionStatement && name = .str "expression" then do
    expectEdge h parent "expression" child
    return .statement
  else if h.kind (some parent) = .arrowFunction && name = .str "body" then do
    expectEdge h parent "body" child
    return .body
  else if h.kind (some parent) = .sequence && name = .index 0 then
    if next ≠ some (.str "expressions") then .ok .closed
    else if (h.elements parent "expressions").head? = some (.node child) then .ok .open
    else .error (.broken (.notFirst h parent))
  else
    match leftmostSlot? h parent with
    | some slot =>
      if name = .str slot then do
        expectEdge h parent slot child
        return .open
      else .ok .closed
    | none => .ok .closed

/-- What going up a path remembers: the last node, the name it is stored under and its index, and the node before it
with its name. -/
structure Climb where
  parent : Option NodeId := none
  parentName : Value := .null
  parentIndex : Nat := 0
  child : Option NodeId := none
  childName : Value := .null
  deriving DecidableEq, Repr

namespace Climb

/-- The entry at an index is come to: a node is remembered as the last one, anything else changes nothing. -/
def enter (g : Grammar) (h : Heap) (entries : List Value) (i : Nat) (c : Climb) : Climb :=
  match entries[i]?.bind (g.asNode h) with
  | some n =>
    { parent := n
      parentName := if 0 < i then (entries[i - 1]?).getD .null else .null
      parentIndex := i
      child := c.parent
      childName := c.parentName }
  | none => c

/-- The step between the last two nodes; with fewer than two there is nothing to say yet. -/
def judge (h : Heap) (entries : List Value) (c : Climb) : Except Stop Passage :=
  match c.child, c.parent with
  | some child, some parent => passage h child c.childName parent entries[c.parentIndex + 1]?
  | _, _ => .ok .open

/-- Goes through the entries at the given indices until a step decides. The last two nodes are judged at every entry,
also at one that is no node. Coming to the end counts as a statement. -/
def leads (g : Grammar) (h : Heap) (entries : List Value) (onlyStatement : Bool) : List Nat → Climb → Except Stop Bool
  | [], _ => .ok true
  | i :: rest, c => do
    match ← (c.enter g h entries i).judge h entries with
    | .open => leads g h entries onlyStatement rest (c.enter g h entries i)
    | .statement => return true
    | .body => return !onlyStatement
    | .closed => return false

end Climb

/-- The current node prints the first token of an expression statement or, unless `onlyStatement`, of the body of an
arrow function. -/
def Path.leads (p : Path) (h : Heap) (onlyStatement : Bool) : Except Stop Bool :=
  Climb.leads p.grammar h p.entries onlyStatement (Stack.valueIndices p.length) {}

/-- The node is printed as `let[`, which begins a declaration. -/
def isLetBracket (h : Heap) (n : NodeId) : Bool :=
  h.kind (some n) = .member && h.flagAt n "computed" &&
    match h.child? n "object" with
    | some object => h.kind (some object) = .identifier && h.textAt object "name" = "let"
    | none => false

/-- The node may begin a statement. -/
def mayLead (h : Heap) : Option NodeId → Bool
  | some n =>
    match h.kind (some n) with
    | .functionExpression | .objectExpression | .classExpression => false
    | _ => !isLetBracket h n
  | none => true

end Bracketing
