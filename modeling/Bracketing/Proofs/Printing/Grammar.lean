import Bracketing.Tree.Value
import Bracketing.Verdict.Operator

/-!
# The grammar of printed expressions

Printed expressions are lists of terminals, and the grammar says which expression such a list spells. The categories
follow the usual expression grammar, from the loosest to the tightest: sequences, then assignments, arrow functions and
`yield`, then conditionals, then the operator tiers, then calls, member accesses and constructions, then what needs no
context. Three of its rules are not just a matter of tiers:

- `**` groups to the right, and its left operand is at least a call;
- the operands of `??` are no `||` and no `&&` without parentheses (`Category.coalesceHead`);
- the body of an arrow function does not begin with a brace.
-/

namespace Bracketing.Printing

open Bracketing.Number Bracketing.Tree

/-- A token of a printed expression. -/
inductive Terminal where
  | identifier (name : String)
  | number (x : Double)
  | operator (op : String)
  /-- A whole function expression, known by its node. -/
  | function (n : NodeId)
  | new | yield | lparen | rparen | lbracket | rbracket | lbrace | rbrace | comma | dot | question | colon | arrow
  deriving DecidableEq

/-- An expression. What stands in parentheses says so. -/
inductive Expr where
  | identifier (name : String)
  | number (x : Double)
  | object
  | function (n : NodeId)
  | binary (op : String) (left right : Expr)
  | conditional (test consequent alternate : Expr)
  | assignment (op : String) (target value : Expr)
  | yield (argument : Expr)
  | call (callee : Expr) (arguments : List Expr)
  | new (callee : Expr) (arguments : List Expr)
  | dotted (object : Expr) (name : String)
  | computed (object index : Expr)
  | sequence (items : List Expr)
  | arrow (params : List String) (body : Expr)
  | paren (inner : Expr)

namespace Expr

mutual

/-- The expression without its parentheses. -/
def bare : Expr → Expr
  | identifier s => .identifier s
  | number x => .number x
  | object => .object
  | function n => .function n
  | binary op l r => .binary op l.bare r.bare
  | conditional t c a => .conditional t.bare c.bare a.bare
  | assignment op t v => .assignment op t.bare v.bare
  | yield a => .yield a.bare
  | call c as => .call c.bare (bareAll as)
  | new c as => .new c.bare (bareAll as)
  | dotted o s => .dotted o.bare s
  | computed o i => .computed o.bare i.bare
  | sequence es => .sequence (bareAll es)
  | arrow ps b => .arrow ps b.bare
  | paren e => e.bare

/-- Expressions without their parentheses. -/
def bareAll : List Expr → List Expr
  | [] => []
  | e :: es => e.bare :: bareAll es

end

/-- The expression may be assigned to. -/
def isTarget : Expr → Bool
  | identifier _ | dotted _ _ | computed _ _ => true
  | paren e => e.isTarget
  | _ => false

end Expr

/-- Lists of terminals with commas between them. -/
def separated : List (List Terminal) → List Terminal
  | [] => []
  | [ts] => ts
  | ts :: rest => ts ++ .comma :: separated rest

/-- The parameters of an arrow function. -/
def params (names : List String) : List Terminal := separated (names.map fun s => [.identifier s])

/-- A syntactic category. -/
inductive Category where
  | expression
  /-- Assignments, arrow functions and `yield`. -/
  | assignment
  | conditional
  /-- Either a tier of operators without `??`, or `??` without `||` and `&&`. -/
  | shortCircuit
  | coalesce
  /-- What may stand to the left of `??`. -/
  | coalesceHead
  /-- The operators of a tier and of those above it. -/
  | tier (k : Nat)
  /-- Calls, and the member accesses that begin with one. -/
  | call
  /-- Member accesses and constructions that do not begin with a call. -/
  | member
  | primary
  deriving DecidableEq

/-- The tier of `**`, the topmost. -/
def topTier : Nat := 11

/-- The tier of the operands of `??`. -/
def coalesceTier : Nat := 3

/-- **The grammar**: `Derives c ts e` says that `ts` spells `e` as a phrase of category `c`. -/
inductive Derives : Category → List Terminal → Expr → Prop
  | identifier (s : String) : Derives .primary [.identifier s] (.identifier s)
  | number (x : Double) : Derives .primary [.number x] (.number x)
  | object : Derives .primary [.lbrace, .rbrace] .object
  | function (n : NodeId) : Derives .primary [.function n] (.function n)
  | paren {ts : List Terminal} {e : Expr} : Derives .expression ts e →
      Derives .primary (.lparen :: ts ++ [.rparen]) (.paren e)
  | ofPrimary {ts : List Terminal} {e : Expr} : Derives .primary ts e → Derives .member ts e
  | memberDotted {ts : List Terminal} {o : Expr} (s : String) : Derives .member ts o →
      Derives .member (ts ++ [.dot, .identifier s]) (.dotted o s)
  | memberComputed {ts us : List Terminal} {o i : Expr} : Derives .member ts o → Derives .expression us i →
      Derives .member (ts ++ .lbracket :: us ++ [.rbracket]) (.computed o i)
  | new {ts : List Terminal} {c : Expr} {args : List (List Terminal × Expr)} : Derives .member ts c →
      (∀ a ∈ args, Derives .assignment a.1 a.2) →
      Derives .member (.new :: ts ++ .lparen :: separated (args.map Prod.fst) ++ [.rparen])
        (.new c (args.map Prod.snd))
  | ofMember {ts : List Terminal} {e : Expr} : Derives .member ts e → Derives .call ts e
  | callDotted {ts : List Terminal} {o : Expr} (s : String) : Derives .call ts o →
      Derives .call (ts ++ [.dot, .identifier s]) (.dotted o s)
  | callComputed {ts us : List Terminal} {o i : Expr} : Derives .call ts o → Derives .expression us i →
      Derives .call (ts ++ .lbracket :: us ++ [.rbracket]) (.computed o i)
  | call {ts : List Terminal} {c : Expr} {args : List (List Terminal × Expr)} : Derives .call ts c →
      (∀ a ∈ args, Derives .assignment a.1 a.2) →
      Derives .call (ts ++ .lparen :: separated (args.map Prod.fst) ++ [.rparen]) (.call c (args.map Prod.snd))
  | ofCall {ts : List Terminal} {e : Expr} : Derives .call ts e → Derives (.tier topTier) ts e
  | power {ls rs : List Terminal} {l r : Expr} : Derives .call ls l → Derives (.tier topTier) rs r →
      Derives (.tier topTier) (ls ++ .operator "**" :: rs) (.binary "**" l r)
  | ofTier {k : Nat} {ts : List Terminal} {e : Expr} : 0 < k → k < topTier → Derives (.tier (k + 1)) ts e →
      Derives (.tier k) ts e
  | binary {k : Nat} {op : String} {ls rs : List Terminal} {l r : Expr} : 0 < k → k < topTier →
      Operator.tier? op = some k → Derives (.tier k) ls l → Derives (.tier (k + 1)) rs r →
      Derives (.tier k) (ls ++ .operator op :: rs) (.binary op l r)
  | coalesce {ls rs : List Terminal} {l r : Expr} : Derives .coalesceHead ls l →
      Derives (.tier coalesceTier) rs r → Derives .coalesce (ls ++ .operator "??" :: rs) (.binary "??" l r)
  | headOfTier {ts : List Terminal} {e : Expr} : Derives (.tier coalesceTier) ts e → Derives .coalesceHead ts e
  | headOfCoalesce {ts : List Terminal} {e : Expr} : Derives .coalesce ts e → Derives .coalesceHead ts e
  | shortOfTier {ts : List Terminal} {e : Expr} : Derives (.tier 1) ts e → Derives .shortCircuit ts e
  | shortOfCoalesce {ts : List Terminal} {e : Expr} : Derives .coalesce ts e → Derives .shortCircuit ts e
  | ofShortCircuit {ts : List Terminal} {e : Expr} : Derives .shortCircuit ts e → Derives .conditional ts e
  | conditional {ts cs as : List Terminal} {t c a : Expr} : Derives .shortCircuit ts t →
      Derives .assignment cs c → Derives .assignment as a →
      Derives .conditional (ts ++ .question :: cs ++ .colon :: as) (.conditional t c a)
  | ofConditional {ts : List Terminal} {e : Expr} : Derives .conditional ts e → Derives .assignment ts e
  | assignment {op : String} {ts vs : List Terminal} {t v : Expr} : t.isTarget = true →
      Operator.tier? op = none → Derives .call ts t → Derives .assignment vs v →
      Derives .assignment (ts ++ .operator op :: vs) (.assignment op t v)
  | yield {ts : List Terminal} {a : Expr} : Derives .assignment ts a → Derives .assignment (.yield :: ts) (.yield a)
  | arrow {names : List String} {ts : List Terminal} {b : Expr} : ts.head? ≠ some .lbrace →
      Derives .assignment ts b →
      Derives .assignment (.lparen :: params names ++ .rparen :: .arrow :: ts) (.arrow names b)
  | ofAssignment {ts : List Terminal} {e : Expr} : Derives .assignment ts e → Derives .expression ts e
  | sequence {items : List (List Terminal × Expr)} : 2 ≤ items.length →
      (∀ a ∈ items, Derives .assignment a.1 a.2) →
      Derives .expression (separated (items.map Prod.fst)) (.sequence (items.map Prod.snd))

end Bracketing.Printing
