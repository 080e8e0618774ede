import Bracketing.Tree.Kind

/-!
# Nodes assembled by hand

The shapes of node most often put together without a parser. An operand that is left out becomes a place without a
node; an element that is left out becomes a hole in its list.
-/

namespace Bracketing.Tree

open Bracketing.Number

/-- A node to be assembled from its parts. -/
inductive Shape where
  | identifier (name : String)
  | number (x : Double)
  | text (s : String)
  | binary (op : String) (left right : Option NodeId)
  /-- An operator before its operand. -/
  | unary (op : String) (operand : Option NodeId)
  | assignment (op : String) (left right : Option NodeId)
  | call (callee : Option NodeId) (arguments : List (Option NodeId))
  | new (callee : Option NodeId) (arguments : List (Option NodeId))
  | member (object property : Option NodeId) (computed : Bool)
  | conditional (test consequent alternate : Option NodeId)
  | sequence (expressions : List (Option NodeId))
  | object (properties : List (Option NodeId))
  | arrow (body : Option NodeId) (params : List (Option NodeId))
  | function (body : Option NodeId) (params : List (Option NodeId))
  | expressionStatement (expression : Option NodeId)
  | returnStatement (operand : Option NodeId)
  | block (body : List (Option NodeId))
  | program (body : List (Option NodeId))
  deriving Repr

namespace Heap

/-- The field value of an operand. -/
def operand : Option NodeId → Value
  | some n => .node n
  | none => .noNode

/-- The list element of a part. -/
def element : Option NodeId → Value
  | some n => .node n
  | none => .null

/-- A heap with a new node of the given kind and fields. -/
def assemble (h : Heap) (k : Kind) (fields : List (String × Value)) : NodeId × Heap :=
  h.addNode { tag := k.tag, fields := Record.ofEntries fields }

/-- A heap with a new list of nodes and holes. -/
def elementList (h : Heap) (ns : List (Option NodeId)) : Value × Heap :=
  let (l, h) := h.addList (ns.map element)
  (.list l, h)

/-- The kind of a binary expression: the operators that may leave out their second operand are logical. -/
def binaryKind (op : String) : Kind := if op = "||" || op = "&&" || op = "??" then .logical else .binary

/-- A heap with a new node of the given shape. -/
def build (h : Heap) : Shape → NodeId × Heap
  | .identifier name => h.assemble .identifier [("name", .str name)]
  | .number x => h.assemble .numericLiteral [("value", .num x)]
  | .text s => h.assemble .stringLiteral [("value", .str s)]
  | .binary op left right =>
    h.assemble (binaryKind op) [("operator", .str op), ("left", operand left), ("right", operand right)]
  | .unary op arg =>
    h.assemble .unary [("operator", .str op), ("prefix", .bool true), ("argument", operand arg)]
  | .assignment op left right =>
    h.assemble .assignment [("operator", .str op), ("left", operand left), ("right", operand right)]
  | .call callee args =>
    let (args, h) := h.elementList args
    h.assemble .call [("callee", operand callee), ("arguments", args)]
  | .new callee args =>
    let (args, h) := h.elementList args
    h.assemble .new [("callee", operand callee), ("arguments", args)]
  | .member object property computed =>
    h.assemble .member [("object", operand object), ("property", operand property), ("computed", .bool computed)]
  | .conditional test consequent alternate =>
    h.assemble .conditional
      [("test", operand test), ("consequent", operand consequent), ("alternate", operand alternate)]
  | .sequence expressions =>
    let (expressions, h) := h.elementList expressions
    h.assemble .sequence [("expressions", expressions)]
  | .object properties =>
    let (properties, h) := h.elementList properties
    h.assemble .objectExpression [("properties", properties)]
  | .arrow body params =>
    let (params, h) := h.elementList params
    h.assemble .arrowFunction [("params", params), ("body", operand body)]
  | .function body params =>
    let (params, h) := h.elementList params
    match body with
    | some b => h.assemble .functionExpression [("id", .null), ("params", params), ("body", .node b)]
    | none =>
      let (empty, h) := h.elementList []
      let (b, h) := h.assemble .block [("body", empty)]
      h.assemble .functionExpression [("id", .null), ("params", params), ("body", .node b)]
  | .expressionStatement expression => h.assemble .expressionStatement [("expression", operand expression)]
  | .returnStatement arg => h.assemble .returnStatement [("argument", operand arg)]
  | .block body =>
    let (body, h) := h.elementList body
    h.assemble .block [("body", body)]
  | .program body =>
    let (body, h) := h.elementList body
    h.assemble .program [("body", body)]

end Heap

end Bracketing.Tree
