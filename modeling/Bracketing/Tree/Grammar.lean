import Bracketing.Tree.Heap

/-!
# Grammars

A grammar tells which values are nodes and which nodes are statements. The standard one takes every node with a tag for
a node and knows the statement tags of the usual tree format and its extensions.
-/

namespace Bracketing.Tree

/-- What the traversal and the decisions ask about values. -/
structure Grammar where
  isNode : Heap → Value → Bool
  isStatement : Heap → NodeId → Bool

/-- The tags of statements and declarations. -/
def statementTags : List String :=
  ["BlockStatement", "BreakStatement", "ClassDeclaration", "ContinueStatement", "DebuggerStatement", "DeclareClass",
    "DeclareFunction", "DeclareModule", "DeclareVariable", "DoWhileStatement", "EmptyStatement",
    "ExportAllDeclaration", "ExportDefaultDeclaration", "ExportNamedDeclaration", "ExpressionStatement",
    "ForInStatement", "ForOfStatement", "ForStatement", "FunctionDeclaration", "IfStatement", "ImportDeclaration",
    "InterfaceDeclaration", "LabeledStatement", "ReturnStatement", "StaticBlock", "SwitchStatement",
    "ThrowStatement", "TryStatement", "TSEnumDeclaration", "TSInterfaceDeclaration", "TSModuleDeclaration",
    "TSTypeAliasDeclaration", "TypeAlias", "VariableDeclaration", "WhileStatement", "WithStatement"]

/-- The tag names a statement or declaration. -/
def isStatementTag (tag : String) : Bool := statementTags.contains tag

namespace Grammar

/-- The standard grammar: a node is a node with a tag. -/
def standard : Grammar where
  isNode h
    | .node n => (h.node n).tag ≠ ""
    | _ => false
  isStatement h n := isStatementTag (h.node n).tag

/-- The standard grammar without the nodes of some tags and with more statements. -/
def standardExcept (notNodes statements : List String) : Grammar where
  isNode h v := standard.isNode h v &&
    match v with
    | .node n => !notNodes.contains (h.node n).tag
    | _ => true
  isStatement h n := isStatementTag (h.node n).tag || statements.contains (h.node n).tag

/-- A grammar that takes every value for a node, with more statements. -/
def everything (statements : List String) : Grammar where
  isNode _ _ := true
  isStatement h n := isStatementTag (h.node n).tag || statements.contains (h.node n).tag

instance : Inhabited Grammar := ⟨standard⟩

/-- The node that a value is for the grammar; `some none` is a place for a node that the grammar takes for one. -/
def asNode (g : Grammar) (h : Heap) (v : Value) : Option (Option NodeId) :=
  if g.isNode h v then
    match v with
    | .node n => some (some n)
    | .noNode => some none
    | _ => none
  else none

end Grammar

end Bracketing.Tree
