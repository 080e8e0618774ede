import Bracketing.Source.Token
import Bracketing.Tree.Record

/-!
# The objects of a tree

A heap holds the nodes, lists, maps and locations that values refer to, one array a kind. Two references to one index
are the same object: a change made through one is seen through the other, and a tree may share objects or lead back to
itself. A reference that leads nowhere reads as an empty object.
-/

namespace Bracketing.Tree

open Bracketing.Source

/-- The tokens of a whole source text, and the half-open range of their indices that a location covers. -/
structure TokenRange where
  tokens : List (Option Token) := []
  first : Int := 0
  stop : Int := 0
  deriving DecidableEq, Inhabited, Repr

/-- Where a node stands in its source text. -/
structure Location where
  span : Span := {}
  range : Option TokenRange := none
  deriving DecidableEq, Inhabited, Repr

/-- A node: its type tag, its fields, the parser's own remarks and its location. -/
structure Node where
  tag : String := ""
  fields : Record := {}
  extra : Option MapId := none
  location : Option LocationId := none
  deriving DecidableEq, Inhabited, Repr

/-- The objects that values refer to. -/
structure Heap where
  nodes : Array Node := #[]
  lists : Array (List Value) := #[]
  maps : Array Record := #[]
  locations : Array Location := #[]
  deriving Inhabited, Repr

namespace Heap

/-! ## Reading -/

/-- The node of an identity. -/
def node (h : Heap) (n : NodeId) : Node := h.nodes.getD n.index {}

/-- The elements of a list. -/
def list (h : Heap) (l : ListId) : List Value := h.lists.getD l.index []

/-- The entries of a map. -/
def map (h : Heap) (m : MapId) : Record := h.maps.getD m.index {}

/-- The location of an identity. -/
def location (h : Heap) (l : LocationId) : Location := h.locations.getD l.index {}

/-- The number of nodes and lists: no chain of distinct ones is longer. -/
def extent (h : Heap) : Nat := h.nodes.size + h.lists.size

/-- What is stored under a name of a node. The names `type`, `loc` and `extra` stand for the tag, the location and the
remarks of the node and not for fields. -/
def get (h : Heap) (n : NodeId) (name : String) : Value :=
  if name = "type" then .str (h.node n).tag
  else if name = "loc" then ((h.node n).location.map Value.location).getD .null
  else if name = "extra" then ((h.node n).extra.map Value.map).getD .null
  else (h.node n).fields.get name

/-- The node under a name, if there is one. -/
def child? (h : Heap) (n : NodeId) (name : String) : Option NodeId :=
  match h.get n name with
  | .node m => some m
  | _ => none

/-- The elements of the list under a name, none if there is no list. -/
def elements (h : Heap) (n : NodeId) (name : String) : List Value :=
  match h.get n name with
  | .list l => h.list l
  | _ => []

/-- The text under a name, empty if there is none. -/
def textAt (h : Heap) (n : NodeId) (name : String) : String :=
  match h.get n name with
  | .str s => s
  | _ => ""

/-- The truth value under a name, false if there is none. -/
def flagAt (h : Heap) (n : NodeId) (name : String) : Bool :=
  match h.get n name with
  | .bool b => b
  | _ => false

/-- The location of a node, if it has one. -/
def location? (h : Heap) (n : NodeId) : Option Location := (h.node n).location.map h.location

/-- Where a node starts; unset without a location. -/
def start (h : Heap) (n : NodeId) : Position := ((h.location? n).map (·.span.start)).getD .none

/-- The parser recorded that the node stood in parentheses. -/
def parenthesized (h : Heap) (n : NodeId) : Bool :=
  match (h.node n).extra with
  | some m => (h.map m).get "parenthesized" = .bool true
  | none => false

/-- The tag of a node, with its start if that is set; the absence of a node is `<nil>`. -/
def label (h : Heap) : Option NodeId → String
  | some n => if (h.start n).isSet then (h.node n).tag ++ "@" ++ (h.start n).text else (h.node n).tag
  | none => "<nil>"

/-- The two values are one: objects by identity, other values by kind and content. An empty list is never the same as
another. -/
def same (h : Heap) : Value → Value → Bool
  | .num x, .num y => x.same y
  | .list l, .list m => l = m && !(h.list l).isEmpty
  | a, b => a = b

/-! ## Writing -/

/-- A heap with a new node. -/
def addNode (h : Heap) (n : Node) : NodeId × Heap := (⟨h.nodes.size⟩, { h with nodes := h.nodes.push n })

/-- A heap with a new list. -/
def addList (h : Heap) (vs : List Value) : ListId × Heap := (⟨h.lists.size⟩, { h with lists := h.lists.push vs })

/-- A heap with a new map. -/
def addMap (h : Heap) (r : Record) : MapId × Heap := (⟨h.maps.size⟩, { h with maps := h.maps.push r })

/-- A heap with a new location. -/
def addLocation (h : Heap) (l : Location) : LocationId × Heap :=
  (⟨h.locations.size⟩, { h with locations := h.locations.push l })

/-- The heap with a node changed in place. -/
def modifyNode (h : Heap) (n : NodeId) (f : Node → Node) : Heap := { h with nodes := h.nodes.modify n.index f }

/-- Stores a value under a field name of a node. -/
def set (h : Heap) (n : NodeId) (name : String) (v : Value) : Heap :=
  h.modifyNode n fun x => { x with fields := x.fields.set name v }

/-- Stores a value at an index of a list; an index outside the list changes nothing. -/
def setElement (h : Heap) (l : ListId) (i : Nat) (v : Value) : Heap :=
  { h with lists := h.lists.modify l.index (·.set i v) }

/-- Records whether a node stood in parentheses, in the map of remarks that it has or in a new one. -/
def setParenthesized (h : Heap) (n : NodeId) (b : Bool) : Heap :=
  match (h.node n).extra with
  | some m => { h with maps := h.maps.modify m.index (·.set "parenthesized" (.bool b)) }
  | none =>
    let (m, h) := h.addMap (({} : Record).set "parenthesized" (.bool b))
    h.modifyNode n fun x => { x with extra := some m }

/-- Gives a node a location of its own, or none. -/
def setLocation (h : Heap) (n : NodeId) : Option Location → Heap
  | some l =>
    let (i, h) := h.addLocation l
    h.modifyNode n fun x => { x with location := some i }
  | none => h.modifyNode n fun x => { x with location := none }

/-- The heap with a location changed in place. -/
def modifyLocation (h : Heap) (l : LocationId) (f : Location → Location) : Heap :=
  { h with locations := h.locations.modify l.index f }

end Heap

end Bracketing.Tree
