import Bracketing.Stop
import Bracketing.Tree.Inspect

/-!
# Token ranges

Attaching a token sequence to a tree gives every located node the sequence and the half-open range of tokens that it
covers: from the first token that does not start before the node to the first that ends after it. Both ends are found
by halving, so the tokens are taken to be in source order.
-/

namespace Bracketing.Tree

open Bracketing.Source

/-- The least index from `lo` to `hi` at which a test holds, by halving: `none` if the test fails to answer. -/
def halve (test : Nat → Option Bool) (lo hi : Nat) : Option Nat :=
  if lo < hi then
    match test ((lo + hi) / 2) with
    | some true => halve test lo ((lo + hi) / 2)
    | some false => halve test ((lo + hi) / 2 + 1) hi
    | none => none
  else some lo
termination_by hi - lo

namespace Location

/-- The index of the first token whose span passes a test; every token looked at has to be there. -/
def firstToken (tokens : List (Option Token)) (test : Span → Bool) : Option Nat :=
  halve (fun i => (tokens[i]?.join).map fun t => test t.span) 0 tokens.length

/-- The location with the token range of its span; at a missing token the range is left as far as it got. -/
def attach (tokens : List (Option Token)) (l : Location) : Location × Option Stop :=
  let range : TokenRange := { l.range.getD {} with tokens := tokens }
  match firstToken tokens fun s => 0 ≤ s.start.compare l.span.start with
  | none => ({ l with range := some range }, some .missing)
  | some first =>
    let range := { range with first := first }
    match firstToken tokens fun s => 0 < s.stop.compare l.span.stop with
    | none => ({ l with range := some range }, some .missing)
    | some stop => ({ l with range := some { range with stop := (max first stop : Nat) } }, none)

end Location

namespace Heap

/-- Attaches tokens to the nodes one by one, until a missing token stops it. -/
def attachTo (tokens : List (Option Token)) : List NodeId → Heap → Heap × Option Stop
  | [], h => (h, none)
  | n :: rest, h =>
    match (h.node n).location with
    | none => attachTo tokens rest h
    | some l =>
      let (location, stop) := (h.location l).attach tokens
      let h := h.modifyLocation l fun _ => location
      match stop with
      | none => attachTo tokens rest h
      | some s => (h, some s)

/-- Attaches tokens to every located node below a value. -/
def attach (h : Heap) (v : Value) (tokens : List (Option Token)) : Heap × Option Stop :=
  match h.preorder v with
  | some ns => attachTo tokens ns h
  | none => (h, some .endless)

end Heap

end Bracketing.Tree
