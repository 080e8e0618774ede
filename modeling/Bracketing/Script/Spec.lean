import Bracketing.Tree.Build

/-!
# Values to be made

A spec describes a value that a script makes: scalars, fresh nodes, lists and maps, and references to values made
before. A node is described from the inside out: first the node, then its fields, its remarks, its mark and its
location, and last the name by which it may be referred to.
-/

namespace Bracketing.Script

open Bracketing.Number Bracketing.Tree

/-- A value to be made. -/
inductive Spec where
  | null
  | bool (b : Bool)
  | num (x : Double)
  | str (s : String)
  | noNode
  | list (items : List Spec)
  | map (entries : List (String × Spec))
  | fresh (tag : String)
  /-- A node of a shape that has a name. -/
  | shaped (shape : String) (parts : List Spec)
  | fields (base : Spec) (entries : List (String × Spec))
  | extra (base : Spec) (entries : List (String × Spec))
  | marked (base : Spec) (parenthesized : Bool)
  | located (base : Spec) (location : Location)
  | called (base : Spec) (name : String)
  | ref (name : String)
  deriving Inhabited

/-- The objects made so far and their names. -/
structure Workshop where
  heap : Heap := {}
  /-- The values that have a name, the latest first. -/
  named : List (String × Value) := []
  /-- The names of nodes, the latest first. -/
  labels : List (NodeId × String) := []
  deriving Inhabited

namespace Workshop

/-- The value of a name; nothing if the name is unknown. -/
def find (w : Workshop) (name : String) : Value := (w.named.lookup name).getD .null

/-- The latest name of a node. -/
def label (w : Workshop) (n : NodeId) : Option String := w.labels.lookup n

/-- Gives a value a name. -/
def call (w : Workshop) (name : String) (v : Value) : Workshop :=
  { w with
    named := (name, v) :: w.named
    labels := match v with
      | .node n => (n, name) :: w.labels
      | _ => w.labels }

end Workshop

/-- The node that a value is. -/
def nodeOf : Value → Option NodeId
  | .node n => some n
  | _ => none

/-- The text that a value is. -/
def textOf : Value → String
  | .str s => s
  | _ => ""

/-- The shape of a name with the given parts. -/
def shape? : String → List Value → Option Shape
  | "Ident", [.str name] => some (.identifier name)
  | "Number", [.num x] => some (.number x)
  | "Str", [.str s] => some (.text s)
  | "Binary", [op, left, right] => some (.binary (textOf op) (nodeOf left) (nodeOf right))
  | "Unary", [op, arg] => some (.unary (textOf op) (nodeOf arg))
  | "Assign", [op, left, right] => some (.assignment (textOf op) (nodeOf left) (nodeOf right))
  | "Call", callee :: args => some (.call (nodeOf callee) (args.map nodeOf))
  | "NewCall", callee :: args => some (.new (nodeOf callee) (args.map nodeOf))
  | "Member", [object, property, computed] =>
    some (.member (nodeOf object) (nodeOf property) (computed = .bool true))
  | "Conditional", [test, consequent, alternate] =>
    some (.conditional (nodeOf test) (nodeOf consequent) (nodeOf alternate))
  | "Sequence", parts => some (.sequence (parts.map nodeOf))
  | "Object", parts => some (.object (parts.map nodeOf))
  | "Arrow", body :: params => some (.arrow (nodeOf body) (params.map nodeOf))
  | "Function", body :: params => some (.function (nodeOf body) (params.map nodeOf))
  | "ExprStmt", [expression] => some (.expressionStatement (nodeOf expression))
  | "Return", [arg] => some (.returnStatement (nodeOf arg))
  | "Block", parts => some (.block (parts.map nodeOf))
  | "Program", parts => some (.program (parts.map nodeOf))
  | _, _ => none

namespace Spec

/-- Changes the node that a value is. -/
def onNode (v : Value) (f : Heap → NodeId → Heap) (w : Workshop) : Workshop :=
  match v with
  | .node n => { w with heap := f w.heap n }
  | _ => w

mutual

/-- Makes the value of a spec. -/
def make : Spec → Workshop → Value × Workshop
  | .null, w => (.null, w)
  | .bool b, w => (.bool b, w)
  | .num x, w => (.num x, w)
  | .str s, w => (.str s, w)
  | .noNode, w => (.noNode, w)
  | .list items, w =>
    let (vs, w) := makeItems items w
    let (l, h) := w.heap.addList vs
    (.list l, { w with heap := h })
  | .map entries, w =>
    let (es, w) := makeEntries entries w
    let (m, h) := w.heap.addMap (Record.ofEntries es)
    (.map m, { w with heap := h })
  | .fresh tag, w =>
    let (n, h) := w.heap.addNode { tag := tag }
    (.node n, { w with heap := h })
  | .shaped name parts, w =>
    let (vs, w) := makeItems parts w
    match shape? name vs with
    | some s =>
      let (n, h) := w.heap.build s
      (.node n, { w with heap := h })
    | none => (.null, w)
  | .fields base entries, w =>
    let (v, w) := make base w
    let (es, w) := makeEntries entries w
    (v, onNode v (fun h n => es.foldl (fun h e => h.set n e.1 e.2) h) w)
  | .extra base entries, w =>
    let (v, w) := make base w
    let (es, w) := makeEntries entries w
    let (m, h) := w.heap.addMap (Record.ofEntries es)
    (v, onNode v (fun h n => h.modifyNode n fun x => { x with extra := some m }) { w with heap := h })
  | .marked base b, w =>
    let (v, w) := make base w
    (v, onNode v (fun h n => h.setParenthesized n b) w)
  | .located base l, w =>
    let (v, w) := make base w
    (v, onNode v (fun h n => h.setLocation n (some l)) w)
  | .called base name, w =>
    let (v, w) := make base w
    (v, w.call name v)
  | .ref name, w => (w.find name, w)

/-- Makes values from left to right. -/
def makeItems : List Spec → Workshop → List Value × Workshop
  | [], w => ([], w)
  | s :: rest, w =>
    let (v, w) := make s w
    let (vs, w) := makeItems rest w
    (v :: vs, w)

/-- Makes the values of entries from left to right. -/
def makeEntries : List (String × Spec) → Workshop → List (String × Value) × Workshop
  | [], w => ([], w)
  | (k, s) :: rest, w =>
    let (v, w) := make s w
    let (vs, w) := makeEntries rest w
    ((k, v) :: vs, w)

end

end Spec

end Bracketing.Script
