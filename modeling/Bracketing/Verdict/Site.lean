import Bracketing.Stop
import Bracketing.Text.Quoted
import Bracketing.Tree.Kind

/-!
# A node and its parent

A rule about parentheses looks at a node, its parent and the name under which the path came from the one to the other.
Whether the parent really holds the node under that name is a question of its own: a rule may ask it (`Site.fills`) or
insist on it (`expectEdge`).
-/

namespace Bracketing

open Bracketing.Text Bracketing.Tree

/-- The parent does not hold the child under a slot. -/
def Invariant.notUnder (h : Heap) (parent : NodeId) (slot : String) : Invariant where
  kind := .edge
  detail := "child is not stored under " ++ quote slot
  tag := (h.node parent).tag
  slot := .str slot
  position := h.start parent

/-- The child is not the first expression of a sequence. -/
def Invariant.notFirst (h : Heap) (parent : NodeId) : Invariant where
  kind := .edge
  detail := "child is not the first expression"
  tag := (h.node parent).tag
  slot := .str "expressions"
  position := h.start parent

/-- Stops unless the parent holds the child under the slot. -/
def expectEdge (h : Heap) (parent : NodeId) (slot : String) (child : NodeId) : Except Stop Unit :=
  if h.get parent slot = .node child then .ok () else .error (.broken (.notUnder h parent slot))

/-- A node, its parent and the name that leads to the node. -/
structure Site where
  heap : Heap
  node : NodeId
  parent : NodeId
  name : Value

namespace Site

variable (s : Site)

/-- The kind of the node. -/
def kind : Kind := s.heap.kind (some s.node)

/-- The kind of the parent. -/
def parentKind : Kind := s.heap.kind (some s.parent)

/-- The name is the slot. -/
def isUnder (slot : String) : Bool := s.name = .str slot

/-- The name is the slot, and the parent holds the node there. -/
def fills (slot : String) : Bool := s.isUnder slot && s.heap.get s.parent slot = .node s.node

/-- The node is the callee of a call or of a construction. -/
def isCallee : Bool := s.parentKind.isCallLike && s.fills "callee"

/-- The node is the object of a member access. -/
def isObject : Bool := s.parentKind = .member && s.fills "object"

/-- The node is the object type of an indexed access. -/
def isObjectType : Bool :=
  s.isUnder "objectType" && (s.parentKind = .indexedAccess || s.parentKind = .optionalIndexedAccess)

/-- The operator of the node. -/
def operator : String := s.heap.textAt s.node "operator"

/-- The operator of the parent. -/
def parentOperator : String := s.heap.textAt s.parent "operator"

end Site

end Bracketing
