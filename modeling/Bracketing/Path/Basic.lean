import Bracketing.Stop
import Bracketing.Tree.Grammar

/-!
# Paths

A path records how a traversal came to the value it is at. Its stack alternates values and names, tip first: the
current value, the name it is stored under, the value that stores it, and so on down to the root, which may have a name
of its own. Which entries are names is decided by their distance from the tip alone. Counted from the root, the values
have even indices if the number of entries is odd, and odd indices if it is even.

* `Path.rootValue` and `Path.names` find their entries by that parity;
* `Path.node` goes from the tip to the root by index, counts the nodes and passes over everything else;
* `Path.isDuplicate` tells whether the tip has been met before on the way.
-/

namespace Bracketing

open Bracketing.Tree

/-- The entries at even distance from the tip. -/
def Stack.values : List Value → List Value
  | [] => []
  | [v] => [v]
  | v :: _ :: rest => v :: values rest

/-- The indices of the values among as many entries, counted from the root: the last one and every second one below. -/
def Stack.valueIndices : Nat → List Nat
  | 0 => []
  | 1 => [0]
  | n + 2 => (n + 1) :: valueIndices n

/-- The way from a root to the current value. -/
structure Path where
  /-- Values and names in turn, the current value first. -/
  stack : List Value := []
  grammar : Grammar := .standard
  /-- Decisions made on the path are reported. -/
  logged : Bool := false
  deriving Inhabited

/-- How a path is to be made, apart from its stack. -/
structure Path.Options where
  grammar : Option Grammar := none
  logged : Bool := false

namespace Path

/-! ## Making paths -/

/-- The path with no entries at all, not even a root. -/
def zero : Path := {}

/-- A path with the given stack. -/
def ofStack (stack : List Value) (o : Options := {}) : Path where
  stack := stack
  grammar := o.grammar.getD .standard
  logged := o.logged

/-- The path that stands at its root. -/
def new (root : Value) (o : Options := {}) : Path := ofStack [root] o

/-- The path that stands at a root stored under a name. -/
def named (name root : Value) (o : Options := {}) : Path := ofStack [root, name] o

/-- A copy of the path, where the given options replace its own. -/
def adapted (p : Path) (o : Options) : Path :=
  { p with grammar := o.grammar.getD p.grammar, logged := o.logged || p.logged }

/-- One link of a chain of ancestors kept by another traversal. -/
structure Link where
  name : Value
  value : Value
  deriving DecidableEq, Repr

/-- The stack one link further down. -/
def Link.push (stack : List Value) (l : Link) : List Value := l.value :: l.name :: stack

/-- A record of the ancestry of a value, as another traversal keeps it: the link of the value, and the record of what is
above it. -/
inductive Ancestry where
  | root (link : Link)
  | under (above : Ancestry) (link : Link)

namespace Ancestry

/-- The link of the value itself. -/
def link : Ancestry → Link
  | root l | under _ l => l

/-- Goes up from a record and puts the name of each value and the value above it behind what has been found so far. A
root that has no name adds nothing. -/
def climb : Ancestry → List Value → List Value
  | root l, found => if l.name = .null then found else found ++ [l.name]
  | under above l, found => above.climb (found ++ [l.name, above.link.value])

/-- The values and names of a record and of those above it, from the tip to the root. -/
def stack (a : Ancestry) : List Value := a.climb [a.link.value]

/-- The record at the tip of a chain of links, root first. -/
def ofLinks (root : Link) (rest : List Link) : Ancestry := rest.foldl under (.root root)

end Ancestry

/-- The stack of a chain of ancestors, root first; a root that has no name stays without one. -/
def replay : List Link → List Value
  | [] => []
  | root :: rest => (Ancestry.ofLinks root rest).stack

/-! ## Asking a path -/

/-- The number of entries. -/
def length (p : Path) : Nat := p.stack.length

/-- The entries from the root to the tip. -/
def entries (p : Path) : List Value := p.stack.reverse

/-- The values from the tip to the root. -/
def values (p : Path) : List Value := Stack.values p.stack

/-- The names from the root to the tip; a root without a name gives none. -/
def names (p : Path) : List Value :=
  (List.range' (if p.length % 2 = 0 then 0 else 1) (p.length / 2) 2).filterMap (p.entries[·]?)

/-- The name of the current value; nothing if it has none. -/
def name (p : Path) : Value :=
  match p.stack with
  | _ :: n :: _ => n
  | _ => .null

/-- The current value. -/
def value (p : Path) : Except Stop Value :=
  match p.stack with
  | v :: _ => .ok v
  | [] => .error (.broken .noRoot)

/-- The value that the path started from: the first entry, or the second if the first is its name. -/
def rootValue (p : Path) : Except Stop Value :=
  match p.entries[if p.length % 2 = 0 then 1 else 0]? with
  | some v => .ok v
  | none => .error (.broken .noRoot)

/-- The current value has been met before on the way. -/
def isDuplicate (p : Path) (h : Heap) : Except Stop Bool :=
  match p.values with
  | v :: earlier => .ok (earlier.any (h.same · v))
  | [] => .error (.broken .noRoot)

/-- The node among the entries at the given indices where a count that every node lowers by one falls below zero. The
count is a word: from the least of all it wraps around. -/
def nodeAlong (g : Grammar) (h : Heap) (entries : List Value) : List Nat → Int64 → Option NodeId
  | [], _ => none
  | i :: rest, k =>
    match entries[i]?.bind (g.asNode h) with
    | some n => if k - 1 < 0 then n else nodeAlong g h entries rest (k - 1)
    | none => nodeAlong g h entries rest k

/-- The node with `k` others between it and the tip; the nearest for negative `k`. -/
def node (p : Path) (h : Heap) (k : Int64 := 0) : Option NodeId :=
  nodeAlong p.grammar h p.entries (Stack.valueIndices p.length) k

/-- The strict ancestor of the current node with `k` others in between. -/
def parent (p : Path) (h : Heap) (k : Int64 := 0) : Option NodeId := p.node h (k + 1)

/-- The value under a name of a value; nothing if it has no such member. -/
def resolve (h : Heap) : Value → Value → Value
  | .node n, .str name => h.get n name
  | .list l, .index i => if 0 ≤ i then ((h.list l)[i.toNat]?).getD .null else .null
  | .map m, .str name => (h.map m).get name
  | _, _ => .null

/-- The stack one member further down. -/
def push (p : Path) (name value : Value) : Path := { p with stack := value :: name :: p.stack }

/-- The path with only its `n` entries nearest to the root. -/
def cut (p : Path) (n : Nat) : Path := { p with stack := p.stack.drop (p.stack.length - n) }

end Path

end Bracketing
