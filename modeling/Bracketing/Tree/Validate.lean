import Bracketing.Stop
import Bracketing.Tree.Grammar

/-!
# Checking a tree

A tree is sound when every place for a node holds a node of the grammar, every located node starts before it ends and
stays within the nearest located node above it, and every token range lies within its tokens. `Heap.validate` lists
every defect, in preorder, with the place where it was found.
-/

namespace Bracketing.Tree

open Bracketing.Source

/-- What can be wrong at one place of a tree. -/
inductive Defect where
  | notNode
  | startAfterEnd (span : Span)
  | escapes (span parent : Span)
  | tokenRange (first stop : Int) (count : Nat)
  deriving DecidableEq, Repr

/-- A defect and the place where it was found. -/
structure Problem where
  place : String
  defect : Defect
  deriving DecidableEq, Repr

/-- The message of a defect at its place. -/
def Problem.message (p : Problem) : String :=
  p.place ++ ": " ++
    match p.defect with
    | .notNode => "not a node"
    | .startAfterEnd s => "start " ++ s.start.text ++ " is after end " ++ s.stop.text
    | .escapes s t =>
      "span " ++ s.start.text ++ "-" ++ s.stop.text ++ " escapes parent span " ++ t.start.text ++ "-" ++ t.stop.text
    | .tokenRange first stop count =>
      "token range [" ++ toString first ++ ", " ++ toString stop ++ ") invalid for " ++ toString count ++ " tokens"

/-- The defects of a location under the span of the nearest located node above it. -/
def Location.defects (l : Location) (parent : Option Span) : List Defect :=
  (if 0 < l.span.start.compare l.span.stop then [.startAfterEnd l.span] else []) ++
  (match parent with
    | some s => if s.contains l.span then [] else [.escapes l.span s]
    | none => []) ++
  (match l.range with
    | some r =>
      if r.first < 0 || r.tokens.length < r.stop || r.stop < r.first then
        [.tokenRange r.first r.stop r.tokens.length]
      else []
    | none => [])

namespace Heap

/-- The problems of a value found at `place`, at most `depth` objects deep; `parent` is the span of the nearest located
node above. -/
def problemsWithin (h : Heap) (g : Grammar) : Nat → Value → Option Span → String → Except Stop (List Problem)
  | 0, _, _, _ => .error .endless
  | depth + 1, v, parent, place =>
    match v with
    | .noNode => if g.isNode h v then .error .missing else .ok [⟨place, .notNode⟩]
    | .node n =>
      if g.isNode h v then do
        let place := place ++ "(" ++ (h.node n).tag ++ ")"
        let location := h.location? n
        let own := ((location.map (·.defects parent)).getD []).map (Problem.mk place)
        let parent := (location.map (·.span)).or parent
        let below ← (h.node n).fields.entries.mapM fun e =>
          h.problemsWithin g depth e.2 parent (place ++ "." ++ e.1)
        return own ++ below.flatten
      else .ok [⟨place, .notNode⟩]
    | .list l => do
      let below ← (h.list l).zipIdx.mapM fun e =>
        h.problemsWithin g depth e.1 parent (place ++ "[" ++ toString e.2 ++ "]")
      return below.flatten
    | _ => .ok []

/-- The problems of the tree below a node, in preorder; without a node, the lack of one. -/
def validate (h : Heap) (g : Grammar) (root : Option NodeId) : Except Stop (List Problem) :=
  h.problemsWithin g (h.extent + 1) ((root.map Value.node).getD .noNode) none "$"

end Heap

end Bracketing.Tree
