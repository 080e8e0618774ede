import Bracketing.Document.Clause.Datum
import Bracketing.Text.ErrorList
import Bracketing.Tree.Attach

/-!
# Trees from documents

A mapping whose `type` is a text that is not empty is a node; its other entries are fields, apart from those that only
describe the source. Every other mapping stays a plain map. The root may bring a token sequence, which is then attached
to every located node.

Reading goes on after a defect, so that all of them are reported: those of the tokens first, then those of the tree, a
node's fields before its remarks and its location. In which order the coordinates of a position are read is left open,
and may be another one for every position (`Readings`).
-/

namespace Bracketing.Document

open Bracketing.Source Bracketing.Text Bracketing.Tree

/-- A defect of a document that is otherwise well formed. -/
inductive Fault where
  | untypedRoot
  | notObject (place typeName : String)
  | notArray (place typeName : String)
  | notInteger (place typeName : String)
  | noLocation (place : String)
  deriving DecidableEq, Repr

/-- The message of a defect. -/
def Fault.message : Fault → String
  | untypedRoot => "$: root object has no type"
  | notObject place typeName => place ++ ": expected object, got " ++ typeName
  | notArray place typeName => place ++ ": expected array, got " ++ typeName
  | notInteger place typeName => place ++ ": expected integer, got " ++ typeName
  | noLocation place => place ++ ": missing loc"

/-- Why a document gives no tree. -/
inductive LoadError where
  /-- The document cannot be decoded. -/
  | malformed
  | rootNotObject (typeName : String)
  | faulty (faults : List Fault)
  deriving DecidableEq, Repr

/-- The message of a document that gives no tree; a document that cannot be decoded has none of its own. -/
def LoadError.message : LoadError → String
  | malformed => "decode"
  | rootNotObject typeName => "decode: root is " ++ typeName ++ ", not an object"
  | faulty faults => errorList (faults.map Fault.message)

/-- The coordinates of a position. -/
inductive Coordinate where
  | column
  | index
  | line
  deriving DecidableEq, Repr

/-- The key of a coordinate. -/
def Coordinate.key : Coordinate → String
  | column => "column"
  | index => "index"
  | line => "line"

namespace Load

/-- The entries of an object that do not become fields. -/
def skippedKeys : List String :=
  ["type", "loc", "extra", "range", "start", "end", "tokens", "comments", "leadingComments", "trailingComments",
    "innerComments"]

/-- The tag of a mapping, if it is a node. -/
def tag? (entries : List (String × Datum)) : Option String :=
  match Datum.find? entries "type" with
  | some (.str t) => if t = "" then none else some t
  | _ => none

/-! ## Positions and locations -/

/-- An order in which the coordinates of a position are read, each of them once. -/
structure Reading where
  order : List Coordinate
  perm : order.Perm [.column, .index, .line]

/-- The coordinates in the order of their keys. -/
def Reading.byKey : Reading := ⟨[.column, .index, .line], .refl _⟩

/-- The orders in which the two positions of a span are read. -/
structure SpanReading where
  start : Reading
  stop : Reading

/-- The orders in which the positions of a document are read, for the spans of tokens by their indices and for those of
nodes by the locations that they become. -/
structure Readings where
  token : Nat → SpanReading
  node : LocationId → SpanReading

/-- All positions in the order of the keys. -/
def Readings.byKey : Readings := ⟨fun _ => ⟨.byKey, .byKey⟩, fun _ => ⟨.byKey, .byKey⟩⟩

/-- A coordinate of a position and its defects. -/
def coordinate (place : String) (entries : List (String × Datum)) (c : Coordinate) : Int64 × List Fault :=
  match Datum.find? entries c.key with
  | none => (0, [])
  | some d =>
    match d.toWord? with
    | some i => (i, [])
    | none => (0, [.notInteger (place ++ "." ++ c.key) d.typeName])

/-- A position and its defects, in the order in which the coordinates are read. -/
def position (r : Reading) (place : String) (d : Datum) : Position × List Fault :=
  match d.entries? with
  | none => (.none, [.notObject place d.typeName])
  | some es =>
    let read := coordinate place es
    (⟨(read .line).1, (read .column).1, (read .index).1⟩, r.order.flatMap fun c => (read c).2)

/-- A span and its defects; none if the datum is no object. -/
def span (r : SpanReading) (place : String) (d : Datum) : Option Span × List Fault :=
  match d.entries? with
  | none => (none, [.notObject place d.typeName])
  | some es =>
    let (start, f₁) := position r.start (place ++ ".start") ((Datum.find? es "start").getD .null)
    let (stop, f₂) := position r.stop (place ++ ".end") ((Datum.find? es "end").getD .null)
    (some ⟨start, stop⟩, f₁ ++ f₂)

/-! ## Tokens -/

/-- The category of a token, and the label that stands for its text if it has none. -/
def category : Datum → String × String
  | .str t => (t, "")
  | .mapping es =>
    match Datum.find? es "label" with
    | some (.str label) => (label, label)
    | _ => ("", "")
  | _ => ("", "")

/-- A token and its defects; none if the datum is no object. -/
def token (r : SpanReading) (place : String) (d : Datum) : Option Token × List Fault :=
  match d.entries? with
  | none => (none, [.notObject place d.typeName])
  | some es =>
    let (category, label) := category ((Datum.find? es "type").getD .null)
    let value := match (Datum.find? es "value").getD .null with
      | .null => label
      | v => v.text
    match Datum.find? es "loc" with
    | some loc =>
      let (s, faults) := span r (place ++ ".loc") loc
      (some ⟨category, value, s.getD {}⟩, faults)
    | none => (some ⟨category, value, {}⟩, [.noLocation place])

/-- The tokens of the root and their defects; none if there is no sequence. -/
def tokens (rs : Readings) : Datum → Option (List (Option Token)) × List Fault
  | .list items =>
    let read := items.zipIdx.map fun (d, i) => token (rs.token i) ("$.tokens[" ++ toString i ++ "]") d
    (some ((read.filterMap Prod.fst).map some), read.flatMap Prod.snd)
  | d => (none, [.notArray "$.tokens" d.typeName])

/-! ## Values -/

/-- The value of a datum that is neither list nor mapping. -/
def scalar : Datum → Value
  | .bool b => .bool b
  | .str s => .str s
  | d =>
    match d.toDouble? with
    | some x => .num x
    | none => .null

mutual

/-- A datum as plain data: mappings become maps. -/
def plain (h : Heap) : Datum → Value × Heap
  | .list items =>
    let (vs, h) := plainItems h items
    let (l, h) := h.addList vs
    (.list l, h)
  | .mapping entries =>
    let (es, h) := plainEntries h entries
    let (m, h) := h.addMap (Record.ofEntries es)
    (.map m, h)
  | d => (scalar d, h)

/-- The items of a list as plain data. -/
def plainItems (h : Heap) : List Datum → List Value × Heap
  | [] => ([], h)
  | d :: rest =>
    let (v, h) := plain h d
    let (vs, h) := plainItems h rest
    (v :: vs, h)

/-- The entries of a mapping as plain data. -/
def plainEntries (h : Heap) : List (String × Datum) → List (String × Value) × Heap
  | [] => ([], h)
  | (k, d) :: rest =>
    let (v, h) := plain h d
    let (vs, h) := plainEntries h rest
    ((k, v) :: vs, h)

end

/-- What has been read of a tree: its objects and the defects found. -/
structure Progress where
  heap : Heap
  faults : List Fault := []

/-- The remarks of a node and their defects. -/
def remarks (place : String) (entries : List (String × Datum)) (p : Progress) : Option MapId × Progress :=
  match Datum.find? entries "extra" with
  | none | some .null => (none, p)
  | some d =>
    match plain p.heap d with
    | (.map m, h) => (some m, { p with heap := h })
    | (_, h) => (none, { heap := h, faults := p.faults ++ [.notObject (place ++ ".extra") d.typeName] })

/-- The location of a node and its defects. -/
def location (rs : Readings) (place : String) (entries : List (String × Datum)) (p : Progress) :
    Option LocationId × Progress :=
  match Datum.find? entries "loc" with
  | none | some .null => (none, p)
  | some d =>
    let (s, faults) := span (rs.node ⟨p.heap.locations.size⟩) (place ++ ".loc") d
    match s with
    | none => (none, { p with faults := p.faults ++ faults })
    | some s =>
      let (l, h) := p.heap.addLocation { span := s }
      (some l, { heap := h, faults := p.faults ++ faults })

mutual

/-- The value of a datum found at a place of the tree. -/
def value (rs : Readings) (place : String) (p : Progress) : Datum → Value × Progress
  | .list items =>
    let (vs, p) := valueItems rs place 0 p items
    let (l, h) := p.heap.addList vs
    (.list l, { p with heap := h })
  | .mapping entries =>
    match tag? entries with
    | some tag =>
      let place := place ++ "(" ++ tag ++ ")"
      let (fields, p) := valueFields rs place p entries
      let (extra, p) := remarks place entries p
      let (loc, p) := location rs place entries p
      let (n, h) := p.heap.addNode { tag := tag, fields := Record.ofEntries fields, extra := extra, location := loc }
      (.node n, { p with heap := h })
    | none =>
      let (es, h) := plainEntries p.heap entries
      let (m, h) := h.addMap (Record.ofEntries es)
      (.map m, { p with heap := h })
  | d => (scalar d, p)

/-- The values of list items from an index on. -/
def valueItems (rs : Readings) (place : String) (i : Nat) (p : Progress) : List Datum → List Value × Progress
  | [] => ([], p)
  | d :: rest =>
    let (v, p) := value rs (place ++ "[" ++ toString i ++ "]") p d
    let (vs, p) := valueItems rs place (i + 1) p rest
    (v :: vs, p)

/-- The fields of a node. -/
def valueFields (rs : Readings) (place : String) (p : Progress) :
    List (String × Datum) → List (String × Value) × Progress
  | [] => ([], p)
  | (k, d) :: rest =>
    if skippedKeys.contains k then valueFields rs place p rest
    else
      let (v, p) := value rs (place ++ "." ++ k) p d
      let (vs, p) := valueFields rs place p rest
      ((k, v) :: vs, p)

end

end Load

/-- Reads a decoded document as a tree among the objects of a heap, with its tokens attached. -/
def load (rs : Load.Readings) (h : Heap) (d : Datum) : Except LoadError (NodeId × Heap) :=
  match d.entries? with
  | none => .error (.rootNotObject d.typeName)
  | some es =>
    let (tokens, tokenFaults) := match Datum.find? es "tokens" with
      | some t => Load.tokens rs t
      | none => (none, [])
    let (v, p) := Load.value rs "$" ⟨h, tokenFaults⟩ d.settled
    match v, p.faults with
    | .node n, [] =>
      match tokens with
      | some ts => .ok (n, (p.heap.attach v ts).1)
      | none => .ok (n, p.heap)
    | .node _, faults => .error (.faulty faults)
    | _, faults => .error (.faulty (faults ++ [.untypedRoot]))

/-- Reads a document as a tree among the objects of a heap. -/
def loadText (rs : Load.Readings) (h : Heap) (text : String) : Except LoadError (NodeId × Heap) :=
  match Datum.read? text with
  | some d => load rs h d
  | none => .error .malformed

end Bracketing.Document
