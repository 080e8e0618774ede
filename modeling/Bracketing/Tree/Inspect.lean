import Bracketing.Tree.Heap

/-!
# Nodes in preorder

`Heap.inspect` visits the nodes below a value: a node before its fields, fields in the order of first setting, list
elements in order. A visit decides whether the fields of its node are entered. How deep it goes is bounded by the number
of objects: a chain longer than that comes back to an object on it and would never end, which is the answer `none`.
-/

namespace Bracketing.Tree.Heap

variable {σ : Type}

/-- Visits the nodes below a value in preorder, threading a state, at most `depth` objects deep. -/
def inspectWithin (h : Heap) (visit : σ → NodeId → Bool × σ) : Nat → Value → σ → Option σ
  | 0, _, _ => none
  | depth + 1, v, s =>
    match v with
    | .node n =>
      let (enter, s) := visit s n
      if enter then (h.node n).fields.entries.foldlM (fun s e => h.inspectWithin visit depth e.2 s) s else some s
    | .list l => (h.list l).foldlM (fun s v => h.inspectWithin visit depth v s) s
    | _ => some s

/-- Visits the nodes below a value in preorder, threading a state; `none` if that never ends. -/
def inspect (h : Heap) (visit : σ → NodeId → Bool × σ) (v : Value) (s : σ) : Option σ :=
  h.inspectWithin visit (h.extent + 1) v s

/-- The nodes below a value in preorder, where the fields of a node are entered if `enter` says so. -/
def preorderWhere (h : Heap) (enter : NodeId → Bool) (v : Value) : Option (List NodeId) :=
  (h.inspect (fun seen n => (enter n, n :: seen)) v []).map List.reverse

/-- All nodes below a value in preorder. -/
def preorder (h : Heap) (v : Value) : Option (List NodeId) := h.preorderWhere (fun _ => true) v

/-- How a search stands: whether a node was found and how many nodes were tested. -/
structure Search where
  found : Bool := false
  tested : Nat := 0
  deriving DecidableEq, Repr

/-- Tests the nodes below a value in preorder until one passes. After that no node is entered, but lists still are, so
that a chain may come to an object once before and once after. -/
def search (h : Heap) (test : NodeId → Bool) (v : Value) : Option Search :=
  h.inspectWithin (fun s n =>
    if s.found then (false, s)
    else if test n then (false, { found := true, tested := s.tested + 1 })
    else (true, { found := false, tested := s.tested + 1 })) (2 * h.extent + 1) v {}

/-- Some node below the value passes the test. -/
def contains (h : Heap) (test : NodeId → Bool) (v : Value) : Option Bool := (h.search test v).map (·.found)

/-- The number of nodes below a value. -/
def count (h : Heap) (v : Value) : Option Nat := h.inspect (fun s _ => (true, s + 1)) v 0

end Bracketing.Tree.Heap
