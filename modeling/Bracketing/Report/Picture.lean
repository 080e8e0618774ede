import Bracketing.Tree.Heap

/-!
# Pictures of values

A picture shows a value without its identity: in full (`Heap.picture`), following every reference, or in brief
(`Heap.brief`), where a node shows its tag only, a list its length and a map its keys.
-/

namespace Bracketing

open Bracketing.Number Bracketing.Tree

/-- What is shown of a value. -/
inductive Picture where
  | null
  | bool (b : Bool)
  | num (x : Double)
  | str (s : String)
  | index (i : Int)
  | noNode
  | foreign
  | location (l : Location)
  /-- A node by its tag and the name it has been given, if any. -/
  | node (tag : String) (label : Option String)
  | listOf (length : Nat)
  | mapOf (keys : List String)
  | tree (tag : String) (fields : List (String × Picture)) (extra : Option Picture) (location : Option Location)
  | items (items : List Picture)
  | entries (entries : List (String × Picture))
  deriving Inhabited

namespace Tree.Heap

/-- The picture of a value that refers to no node, list or map. -/
def plainPicture (h : Heap) : Value → Picture
  | .bool b => .bool b
  | .num x => .num x
  | .str s => .str s
  | .index i => .index i
  | .noNode => .noNode
  | .location l => .location (h.location l)
  | .foreign _ => .foreign
  | _ => .null

/-- The keys of a record in ascending order. -/
def sortedKeys (r : Record) : List String := r.keys.mergeSort fun a b => !(b < a)

/-- A value in brief; `label` gives the names of nodes. -/
def brief (h : Heap) (label : NodeId → Option String) : Value → Picture
  | .node n => .node (h.node n).tag (label n)
  | .list l => .listOf (h.list l).length
  | .map m => .mapOf (sortedKeys (h.map m))
  | v => h.plainPicture v

/-- A value in full, at most `depth` objects deep. -/
def pictureWithin (h : Heap) : Nat → Value → Option Picture
  | 0, _ => none
  | depth + 1, v =>
    match v with
    | .node n => do
      let fields ← (h.node n).fields.keys.mapM fun k => do
        return (k, ← h.pictureWithin depth (h.get n k))
      let extra ← match (h.node n).extra with
        | some m => (h.pictureWithin depth (.map m)).map some
        | none => some none
      return .tree (h.node n).tag fields extra (h.location? n)
    | .list l => do return .items (← (h.list l).mapM (h.pictureWithin depth))
    | .map m => do
      return .entries (← (sortedKeys (h.map m)).mapM fun k => do
        return (k, ← h.pictureWithin depth ((h.map m).get k)))
    | v => some (h.plainPicture v)

/-- A value in full; `none` if it comes back to itself. -/
def picture (h : Heap) (v : Value) : Option Picture := h.pictureWithin (h.extent + h.maps.size + 1) v

end Tree.Heap

end Bracketing
