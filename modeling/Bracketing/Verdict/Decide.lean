import Bracketing.Tree.Inspect
import Bracketing.Verdict.Leading
import Bracketing.Verdict.Operator

/-!
# The verdict on parentheses

`Path.decide` tells whether the node at the tip of a path must be printed in parentheses to keep its meaning, and by
which rule. The rules are tried in a fixed order: what the path stands at, what the source says, what the kinds of the
node and its parent say (`Site.byKind`), the callee of a construction, and the leading position in a statement.
-/

namespace Bracketing

open Bracketing.Tree

/-- The rule that reached a verdict. -/
inductive Rule where
  | notNode
  | objectPatternAssignment
  | root
  | statement
  | identifier
  | explicitParent
  | sourceParens
  /-- The rule for the nodes of a tag. -/
  | ofTag (tag : String)
  | newCallee
  | leadingToken
  | default
  deriving DecidableEq, Repr

/-- The name of a rule. -/
def Rule.text : Rule → String
  | notNode => "not a node"
  | objectPatternAssignment => "object pattern assignment"
  | root => "root"
  | statement => "statement"
  | identifier => "identifier"
  | explicitParent => "explicit parenthesized parent"
  | sourceParens => "source parens"
  | ofTag tag => tag
  | newCallee => "new callee"
  | leadingToken => "leading token"
  | default => "default"

/-- Whether parentheses are needed, and the rule that says so. -/
structure Verdict where
  parens : Bool
  rule : Rule
  deriving DecidableEq, Repr

namespace Site

variable (s : Site)

/-- A binary expression inside another needs parentheses: it binds more loosely, or as tightly on the side to which the
parent does not associate, or its operator may not stand beside the parent's. -/
def binaryInBinary : Except Stop Bool :=
  if Operator.clash s.parentOperator s.operator then .ok true
  else
    match Operator.tier? s.parentOperator, Operator.tier? s.operator with
    | some outer, some inner =>
      if inner < outer then .ok true
      else if outer = inner && s.isUnder "right" then do
        expectEdge s.heap s.parent "right" s.node
        return true
      else if outer = inner && s.parentOperator = "**" && s.isUnder "left" then do
        expectEdge s.heap s.parent "left" s.node
        return true
      else .ok false
    | _, _ => .ok false

/-- The verdict that the kinds of the node and its parent alone reach; `none` leaves it to the later rules. The second
ancestor `grandparent` matters for function types only. -/
def byKind (grandparent : Option NodeId) : Except Stop (Option Bool) :=
  match s.kind with
  | .unary | .spreadElement | .spreadProperty =>
    .ok (some ((s.parentKind.isBinary && s.parentOperator = "**" && s.fills "left") || s.isObject))
  | .binary | .logical =>
    if s.parentKind.isCallLike then .ok (if s.fills "callee" then some true else none)
    else if s.parentKind.isUnaryLike then .ok (some true)
    else if s.parentKind = .member then .ok (some s.isObject)
    else if s.parentKind.isBinary then do
      return if ← s.binaryInBinary then some true else none
    else .ok (some false)
  | .sequence =>
    match s.parentKind with
    | .returnStatement | .forStatement => .ok (some false)
    | .expressionStatement => .ok (some !(s.isUnder "expression"))
    | _ => .ok (some true)
  | .numericLiteral => .ok (some s.isObject)
  | .literal =>
    match s.heap.get s.node "value" with
    | .num _ => .ok (some s.isObject)
    | _ => .ok (some false)
  | .yield | .await | .assignment | .conditional =>
    if s.parentKind.isUnaryLike || s.parentKind.isBinary then .ok (some true)
    else if s.parentKind.isCallLike then .ok (some (s.fills "callee"))
    else if s.parentKind = .conditional then .ok (some (s.fills "test"))
    else .ok (some s.isObject)
  | .arrowFunction =>
    .ok (some (s.isCallee || s.isObject || (s.parentKind.isTypeCast && s.fills "expression") ||
      s.parentKind = .unary || s.parentKind = .await || (s.parentKind = .conditional && s.fills "test") ||
      s.parentKind.isBinary))
  | .objectExpression =>
    .ok (if s.parentKind = .arrowFunction && s.fills "body" then some true else none)
  | .tsAs | .tsSatisfies =>
    .ok (if s.parentKind = .arrowFunction && s.fills "body" &&
        s.heap.kind (s.heap.child? s.node "expression") = .objectExpression then some true else none)
  | .call =>
    .ok (if s.parentKind = .exportDefault && s.fills "declaration" &&
        s.heap.kind (s.heap.child? s.node "callee") = .functionExpression then some true else none)
  | .unionType | .intersectionType =>
    .ok (some (s.parentKind = .arrayType || s.parentKind = .nullableType || s.parentKind = .unionType ||
      s.parentKind = .intersectionType || s.isObjectType))
  | .nullableType => .ok (some (s.parentKind = .arrayType || s.isObjectType))
  | .functionType =>
    let outer := if s.parentKind = .nullableType then s.heap.kind grandparent else s.parentKind
    .ok (some (outer = .unionType || outer = .intersectionType || outer = .arrayType ||
      s.parentKind = .nullableType || s.isObjectType))
  | .optionalIndexedAccess => .ok (some (s.isUnder "objectType" && s.parentKind = .indexedAccess))
  | _ => .ok none

end Site

/-- A call appears at or below a node. -/
def containsCall (h : Heap) (n : NodeId) : Except Stop Bool :=
  match h.contains (fun m => h.kind (some m) = .call) (.node n) with
  | some found => .ok found
  | none => .error .endless

namespace Path

/-- The rules that come after those of the kinds: the callee of a construction, and the leading position unless the
caller knows that the node is not in one. -/
def decideByPlace (p : Path) (inExpression : Bool) (s : Site) : Except Stop Verdict :=
  if s.parentKind = .new && s.fills "callee" then do
    return ⟨← containsCall s.heap s.node, .newCallee⟩
  else if !inExpression && !mayLead s.heap (some s.node) then do
    if ← p.leads s.heap (s.kind ≠ .objectExpression) then return ⟨true, .leadingToken⟩
    else return ⟨false, .default⟩
  else .ok ⟨false, .default⟩

/-- The verdict on a node under its parent. -/
def decideUnder (p : Path) (inExpression : Bool) (s : Site) : Except Stop Verdict :=
  if p.grammar.isStatement s.heap s.node then .ok ⟨false, .statement⟩
  else if s.kind = .identifier then .ok ⟨false, .identifier⟩
  else if s.parentKind = .parenthesized then .ok ⟨false, .explicitParent⟩
  else if s.heap.parenthesized s.node then .ok ⟨true, .sourceParens⟩
  else do
    match ← s.byKind (p.parent s.heap 1) with
    | some parens => return ⟨parens, .ofTag (s.heap.node s.node).tag⟩
    | none => p.decideByPlace inExpression s

/-- The verdict on the current value. With `inExpression` the caller knows that the node does not begin a statement or
the body of an arrow function. -/
def decide (p : Path) (h : Heap) (inExpression : Bool) : Except Stop Verdict := do
  let value ← p.value
  match p.node h with
  | none => return ⟨false, .notNode⟩
  | some n =>
    if value ≠ .node n then return ⟨false, .notNode⟩
    else if h.kind (some n) = .assignment && h.kind (h.child? n "left") = .objectPattern then
      return ⟨true, .objectPatternAssignment⟩
    else
      match p.parent h with
      | none => return ⟨false, .root⟩
      | some parent => p.decideUnder inExpression ⟨h, n, parent, p.name⟩

/-- A report of one decision. -/
structure Event where
  node : String
  parent : String
  slot : Value
  verdict : Verdict
  deriving DecidableEq, Repr

/-- The report of a decision on the current value. -/
def event (p : Path) (h : Heap) (v : Verdict) : Event where
  node := h.label (p.node h)
  parent := h.label (p.parent h)
  slot := p.name
  verdict := v

end Path

end Bracketing
