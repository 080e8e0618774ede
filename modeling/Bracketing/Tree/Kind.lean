import Bracketing.Tree.Heap

/-!
# Kinds of nodes

The type tags that decisions about parentheses look at, as an enumeration. A tag that no decision looks at is of kind
`Kind.other`.
-/

namespace Bracketing.Tree

/-- A kind of node that some rule singles out. -/
inductive Kind where
  | arrayType | arrowFunction | assignment | await | binary | block | call | classExpression | conditional
  | exportDefault | expressionStatement | forStatement | functionExpression | functionType | identifier
  | indexedAccess | intersectionType | literal | logical | member | new | nullableType | numericLiteral
  | objectExpression | objectPattern | optionalCall | optionalIndexedAccess | optionalMember | parenthesized
  | program | returnStatement | sequence | spreadElement | spreadProperty | stringLiteral | taggedTemplate
  | tsAs | tsNonNull | tsSatisfies | unary | unionType | update | yield | other
  deriving DecidableEq, Inhabited, Repr

namespace Kind

/-- The tag of a kind; the nameless kind has the empty tag. -/
def tag : Kind → String
  | arrayType => "ArrayTypeAnnotation"
  | arrowFunction => "ArrowFunctionExpression"
  | assignment => "AssignmentExpression"
  | await => "AwaitExpression"
  | binary => "BinaryExpression"
  | block => "BlockStatement"
  | call => "CallExpression"
  | classExpression => "ClassExpression"
  | conditional => "ConditionalExpression"
  | exportDefault => "ExportDefaultDeclaration"
  | expressionStatement => "ExpressionStatement"
  | forStatement => "ForStatement"
  | functionExpression => "FunctionExpression"
  | functionType => "FunctionTypeAnnotation"
  | identifier => "Identifier"
  | indexedAccess => "IndexedAccessType"
  | intersectionType => "IntersectionTypeAnnotation"
  | literal => "Literal"
  | logical => "LogicalExpression"
  | member => "MemberExpression"
  | new => "NewExpression"
  | nullableType => "NullableTypeAnnotation"
  | numericLiteral => "NumericLiteral"
  | objectExpression => "ObjectExpression"
  | objectPattern => "ObjectPattern"
  | optionalCall => "OptionalCallExpression"
  | optionalIndexedAccess => "OptionalIndexedAccessType"
  | optionalMember => "OptionalMemberExpression"
  | parenthesized => "ParenthesizedExpression"
  | program => "Program"
  | returnStatement => "ReturnStatement"
  | sequence => "SequenceExpression"
  | spreadElement => "SpreadElement"
  | spreadProperty => "SpreadProperty"
  | stringLiteral => "StringLiteral"
  | taggedTemplate => "TaggedTemplateExpression"
  | tsAs => "TSAsExpression"
  | tsNonNull => "TSNonNullExpression"
  | tsSatisfies => "TSSatisfiesExpression"
  | unary => "UnaryExpression"
  | unionType => "UnionTypeAnnotation"
  | update => "UpdateExpression"
  | yield => "YieldExpression"
  | other => ""

/-- The kinds that have a tag. -/
def named : List Kind :=
  [arrayType, arrowFunction, assignment, await, binary, block, call, classExpression, conditional, exportDefault,
    expressionStatement, forStatement, functionExpression, functionType, identifier, indexedAccess,
    intersectionType, literal, logical, member, new, nullableType, numericLiteral, objectExpression, objectPattern,
    optionalCall, optionalIndexedAccess, optionalMember, parenthesized, program, returnStatement, sequence,
    spreadElement, spreadProperty, stringLiteral, taggedTemplate, tsAs, tsNonNull, tsSatisfies, unary, unionType,
    update, yield]

/-- The kind of a tag. -/
def ofTag (tag : String) : Kind := (named.find? (·.tag == tag)).getD other

/-- Every kind is found by its tag. -/
theorem ofTag_tag (k : Kind) : ofTag k.tag = k := by
  cases k <;> decide

/-- A binary operator expression, arithmetic or logical. -/
def isBinary (k : Kind) : Bool := k = binary || k = logical

/-- An expression whose operator stands before its only operand. -/
def isUnaryLike (k : Kind) : Bool := k = unary || k = spreadElement || k = spreadProperty

/-- A call of either sort that always prints its callee first or after `new`. -/
def isCallLike (k : Kind) : Bool := k = call || k = new

/-- An expression that gives another expression a type. -/
def isTypeCast (k : Kind) : Bool := k = tsAs || k = tsSatisfies

end Kind

/-- The kind of a node; the absence of a node is of no kind that a rule singles out. -/
def Heap.kind (h : Heap) : Option NodeId → Kind
  | some n => Kind.ofTag (h.node n).tag
  | none => .other

/-- A node of a kind that has a tag has that tag. -/
theorem Heap.tag_of_kind {h : Heap} {n : NodeId} {k : Kind} (hk : h.kind (some n) = k) (ho : k ≠ .other) :
    (h.node n).tag = k.tag := by
  simp only [Heap.kind, Kind.ofTag] at hk
  cases hf : Kind.named.find? (·.tag == (h.node n).tag) with
  | none =>
    rw [hf] at hk
    exact absurd hk.symm ho
  | some k' =>
    rw [hf] at hk
    have := List.find?_some hf
    simp only [beq_iff_eq] at this
    rw [← this, ← hk]
    rfl

end Bracketing.Tree
