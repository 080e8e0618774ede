import Bracketing.Proofs.Path.Trail
import Bracketing.Proofs.Printing.Grammar
import Bracketing.Tree.Build

/-!
# Printing expressions

`print` writes the expression of a node as terminals, going down the tree along a path, and puts a node in parentheses
exactly where the verdict at its path says so. Which expression a node is, `Heap.Holds` tells: the kinds and fields of
the nodes below it are those of the expression, and none of them is marked as having stood in parentheses.
-/

namespace Bracketing

open Bracketing.Tree

namespace Printing

/-- The terminals of a node, in parentheses if the verdict at its path asks for them. -/
def enclose (h : Heap) (p : Path) (ts : List Terminal) : Except Stop (List Terminal) := do
  let v ← p.decide h false
  return if v.parens then .lparen :: ts ++ [.rparen] else ts

/-- The terminals of identifiers at the elements of the list at the tip of a path, from an index on. -/
def printNames (h : Heap) (p : Path) (i : Nat) : List String → Except Stop (List (List Terminal))
  | [] => .ok []
  | s :: names => do
    let ts ← enclose h (p.down h (.index i)) [.identifier s]
    return ts :: (← printNames h p (i + 1) names)

mutual

/-- The terminals of the expression at the tip of a path. -/
def print (h : Heap) (p : Path) : Expr → Except Stop (List Terminal)
  | .identifier s => enclose h p [.identifier s]
  | .number x => enclose h p [.number x]
  | .object => enclose h p [.lbrace, .rbrace]
  | .function n => enclose h p [.function n]
  | .binary op l r => do
    let ls ← print h (p.down h (.str "left")) l
    let rs ← print h (p.down h (.str "right")) r
    enclose h p (ls ++ .operator op :: rs)
  | .conditional t c a => do
    let ts ← print h (p.down h (.str "test")) t
    let cs ← print h (p.down h (.str "consequent")) c
    let as ← print h (p.down h (.str "alternate")) a
    enclose h p (ts ++ .question :: cs ++ .colon :: as)
  | .assignment op t v => do
    let ts ← print h (p.down h (.str "left")) t
    let vs ← print h (p.down h (.str "right")) v
    enclose h p (ts ++ .operator op :: vs)
  | .yield a => do
    let ts ← print h (p.down h (.str "argument")) a
    enclose h p (.yield :: ts)
  | .call c as => do
    let ts ← print h (p.down h (.str "callee")) c
    let us ← printItems h (p.down h (.str "arguments")) 0 as
    enclose h p (ts ++ .lparen :: separated us ++ [.rparen])
  | .new c as => do
    let ts ← print h (p.down h (.str "callee")) c
    let us ← printItems h (p.down h (.str "arguments")) 0 as
    enclose h p (.new :: ts ++ .lparen :: separated us ++ [.rparen])
  | .dotted o s => do
    let ts ← print h (p.down h (.str "object")) o
    let us ← enclose h (p.down h (.str "property")) [.identifier s]
    enclose h p (ts ++ .dot :: us)
  | .computed o i => do
    let ts ← print h (p.down h (.str "object")) o
    let us ← print h (p.down h (.str "property")) i
    enclose h p (ts ++ .lbracket :: us ++ [.rbracket])
  | .sequence es => do
    let us ← printItems h (p.down h (.str "expressions")) 0 es
    enclose h p (separated us)
  | .arrow names b => do
    let us ← printNames h (p.down h (.str "params")) 0 names
    let ts ← print h (p.down h (.str "body")) b
    enclose h p (.lparen :: separated us ++ .rparen :: .arrow :: ts)
  | .paren e => do
    let ts ← print h p e
    return .lparen :: ts ++ [.rparen]

/-- The terminals of expressions at the elements of the list at the tip of a path, from an index on. -/
def printItems (h : Heap) (p : Path) (i : Nat) : List Expr → Except Stop (List (List Terminal))
  | [] => .ok []
  | e :: es => do
    let ts ← print h (p.down h (.index i)) e
    return ts :: (← printItems h p (i + 1) es)

end

theorem drop_eq_cons {vs : List Value} {i : Nat} {v : Value} {rest : List Value} (hd : vs.drop i = v :: rest) :
    vs[i]? = some v ∧ vs.drop (i + 1) = rest := by
  have h0 : (vs.drop i)[0]? = some v := by rw [hd]; rfl
  rw [List.getElem?_drop] at h0
  have h1 : (vs.drop i).drop 1 = rest := by rw [hd]; rfl
  rw [List.drop_drop] at h1
  exact ⟨h0, h1⟩

end Printing

namespace Tree.Heap

open Printing

/-- The value is a node of a kind that has not been marked as having stood in parentheses. -/
structure IsBare (h : Heap) (v : Value) (k : Kind) (n : NodeId) : Prop where
  value : v = .node n
  kind : h.kind (some n) = k
  unmarked : h.parenthesized n = false

/-- The value is an identifier. -/
def IsName (h : Heap) (v : Value) (s : String) : Prop := ∃ n, h.IsBare v .identifier n ∧ h.get n "name" = .str s

/-- The values are identifiers. -/
def AreNames (h : Heap) : List Value → List String → Prop
  | [], [] => True
  | v :: vs, s :: names => h.IsName v s ∧ h.AreNames vs names
  | _, _ => False

mutual

/-- The value is an expression. Binary operators are those that have a tier, and assignments use another and assign to
an identifier or a member. -/
def Holds (h : Heap) (v : Value) : Expr → Prop
  | .identifier s => h.IsName v s
  | .number x => ∃ n, h.IsBare v .numericLiteral n ∧ h.get n "value" = .num x
  | .object => ∃ n, h.IsBare v .objectExpression n ∧ h.elements n "properties" = []
  | .function n => h.IsBare v .functionExpression n
  | .binary op l r => ∃ n, h.IsBare v (binaryKind op) n ∧ h.get n "operator" = .str op ∧
      (Operator.tier? op).isSome ∧ h.Holds (h.get n "left") l ∧ h.Holds (h.get n "right") r
  | .conditional t c a => ∃ n, h.IsBare v .conditional n ∧ h.Holds (h.get n "test") t ∧
      h.Holds (h.get n "consequent") c ∧ h.Holds (h.get n "alternate") a
  | .assignment op t w => ∃ n, h.IsBare v .assignment n ∧ h.get n "operator" = .str op ∧
      Operator.tier? op = none ∧ t.isTarget = true ∧ h.Holds (h.get n "left") t ∧ h.Holds (h.get n "right") w
  | .yield a => ∃ n, h.IsBare v .yield n ∧ h.Holds (h.get n "argument") a
  | .call c as => ∃ n l, h.IsBare v .call n ∧ h.Holds (h.get n "callee") c ∧ h.get n "arguments" = .list l ∧
      h.HoldsAll (h.list l) as
  | .new c as => ∃ n l, h.IsBare v .new n ∧ h.Holds (h.get n "callee") c ∧ h.get n "arguments" = .list l ∧
      h.HoldsAll (h.list l) as
  | .dotted o s => ∃ n, h.IsBare v .member n ∧ h.flagAt n "computed" = false ∧ h.Holds (h.get n "object") o ∧
      h.IsName (h.get n "property") s
  | .computed o i => ∃ n, h.IsBare v .member n ∧ h.flagAt n "computed" = true ∧ h.Holds (h.get n "object") o ∧
      h.Holds (h.get n "property") i
  | .sequence es => ∃ n l, h.IsBare v .sequence n ∧ h.get n "expressions" = .list l ∧ 2 ≤ es.length ∧
      h.HoldsAll (h.list l) es
  | .arrow names b => ∃ n l, h.IsBare v .arrowFunction n ∧ h.get n "params" = .list l ∧
      h.AreNames (h.list l) names ∧ h.Holds (h.get n "body") b
  | .paren _ => False

/-- The values are expressions. -/
def HoldsAll (h : Heap) : List Value → List Expr → Prop
  | [], [] => True
  | v :: vs, e :: es => h.Holds v e ∧ h.HoldsAll vs es
  | _, _ => False

end

end Tree.Heap

end Bracketing
