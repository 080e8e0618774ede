import Bracketing.Path.Basic

/-!
# Tokens around a node

The token just before and just after a node, as far as it lies within the root of the path: a printer of a part of a
program does not see what surrounds the part.
-/

namespace Bracketing

open Bracketing.Source Bracketing.Tree

namespace Path

/-- The location of the root, if the root is a located node. -/
def rootLocation (p : Path) (h : Heap) : Except Stop (Option Location) := do
  match p.grammar.asNode h (← p.rootValue) with
  | some (some n) => return h.location? n
  | some none => .error .missing
  | none => return none

/-- The token range of a node, of the current node if none is given. -/
def tokenRange (p : Path) (h : Heap) (n : Option NodeId) : Option TokenRange := do
  (← h.location? (← n.or (p.node h))).range

/-- The token at an index of a range, if the location of the root admits it. -/
def tokenWithin (p : Path) (h : Heap) (r : TokenRange) (i : Nat) (admits : Span → Token → Bool) :
    Except Stop (Option Token) := do
  match r.tokens[i]?.join, ← p.rootLocation h with
  | some t, some root => return if admits root.span t then some t else none
  | _, _ => return none

/-- The token before a node, of the current node if none is given, unless it starts before the root. -/
def previousToken (p : Path) (h : Heap) (n : Option NodeId := none) : Except Stop (Option Token) :=
  match p.tokenRange h n with
  | some r =>
    if r.first ≤ 0 || r.tokens.length < r.first then .ok none
    else p.tokenWithin h r (r.first - 1).toNat fun root t => root.start.compare t.span.start ≤ 0
  | none => .ok none

/-- The token after a node, of the current node if none is given, unless it ends after the root. -/
def nextToken (p : Path) (h : Heap) (n : Option NodeId := none) : Except Stop (Option Token) :=
  match p.tokenRange h n with
  | some r =>
    if r.stop < 0 || r.tokens.length ≤ r.stop then .ok none
    else p.tokenWithin h r r.stop.toNat fun root t => t.span.stop.compare root.stop ≤ 0
  | none => .ok none

/-- The source has an opening parenthesis right before the current node. -/
def hasParens (p : Path) (h : Heap) : Except Stop Bool := do
  return Token.reads (← p.previousToken h) "("

end Path

end Bracketing
