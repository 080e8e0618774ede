import Bracketing.Number.Decimal

/-!
# Values of a syntax tree

The fields of a node, the elements of a list and the entries of a path are values. Nodes, lists, maps and locations
have an identity of their own, so a value refers to them; everything else is held directly. `Value.noNode` is a place
made for a node that holds none, which is not the same as `Value.null`.
-/

namespace Bracketing.Tree

open Bracketing.Number

/-- The identity of a node. -/
structure NodeId where
  index : Nat
  deriving DecidableEq, Inhabited, Repr

/-- The identity of a list. -/
structure ListId where
  index : Nat
  deriving DecidableEq, Inhabited, Repr

/-- The identity of a map. -/
structure MapId where
  index : Nat
  deriving DecidableEq, Inhabited, Repr

/-- The identity of a location. -/
structure LocationId where
  index : Nat
  deriving DecidableEq, Inhabited, Repr

/-- A value stored in a tree or on a path. -/
inductive Value where
  /-- Nothing; in a list, a hole. -/
  | null
  | bool (b : Bool)
  | num (x : Double)
  | str (s : String)
  /-- The position of an element in its list. -/
  | index (i : Int)
  | node (n : NodeId)
  /-- A place for a node that holds none. -/
  | noNode
  | list (l : ListId)
  | map (m : MapId)
  | location (l : LocationId)
  /-- A value of no kind that trees are made of, known by the name of its type. -/
  | foreign (typeName : String)
  deriving DecidableEq, Inhabited, Repr

namespace Value

/-- The name of a value's type, as messages give it. -/
def typeName : Value → String
  | null => "<nil>"
  | bool _ => "bool"
  | num _ => "float64"
  | str _ => "string"
  | index _ => "int"
  | node _ | noNode => "*ast.Node"
  | list _ => "[]interface {}"
  | map _ => "map[string]interface {}"
  | location _ => "*ast.Location"
  | foreign t => t

/-- The text of a value used as a name; a value that has no text of its own goes by the name of its type. -/
def text : Value → String
  | null => "<nil>"
  | bool b => if b then "true" else "false"
  | num x => x.text
  | str s => s
  | index i => toString i
  | v => v.typeName

end Value

end Bracketing.Tree
