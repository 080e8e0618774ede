import Bracketing.Report.Survey
import Bracketing.Text.Json

/-!
# Listings

The two listings of a tree: the nodes that must be printed in parentheses (`Listing.parens`), as lines or as JSON, and
the tokens on either side of every node (`Listing.tokens`).
-/

namespace Bracketing.Listing

open Bracketing.Source Bracketing.Text Bracketing.Tree

/-- A text filled up with blanks to a width. -/
def padded (width : Nat) (s : String) : String := s ++ String.ofList (List.replicate (width - s.length) ' ')

/-- A node of the listing of parentheses. -/
structure Entry where
  accessor : String
  tag : String
  /-- The tag of the parent node; empty without one. -/
  parent : String
  start : String
  /-- Parentheses are needed. -/
  parens : Bool
  /-- The source has an opening parenthesis before the node. -/
  source : Bool
  deriving DecidableEq, Repr

/-- The entry of the current node; none if only nodes in need of parentheses are asked for and this is none. -/
def entryAt (all inExpression : Bool) (p : Path) (h : Heap) : Except Stop (Option Entry) := do
  let first ← p.decide h false
  let verdict ← if inExpression then p.decide h true else pure first
  if !verdict.parens && !all then return none
  else
    let tagOf (n : Option NodeId) : String := (n.map fun n => (h.node n).tag).getD ""
    return some {
      accessor := Path.accessor p.names
      tag := tagOf (p.node h)
      parent := tagOf (p.parent h)
      start := h.startText (p.node h)
      parens := verdict.parens
      source := ← p.hasParens h }

/-- The entries of a tree, or what stopped the walk. -/
def parens (h : Heap) (root : NodeId) (all inExpression : Bool) : Except Stop (List Entry) :=
  Tour.report h (Path.new (.node root)) (entryAt all inExpression)

/-- An entry as a line. -/
def Entry.line (e : Entry) : String :=
  padded 8 e.start ++ " " ++ (if e.parens then "parens" else "bare") ++ " " ++ e.tag ++ " " ++ e.accessor ++ "\n"

/-- An entry as a JSON object; an empty parent is left out. -/
def Entry.json (e : Entry) : Json :=
  .obj ([("path", .str e.accessor), ("type", .str e.tag)] ++
    (if e.parent = "" then [] else [("parent", .str e.parent)]) ++
    [("pos", .str e.start), ("parens", .bool e.parens), ("source_parens", .bool e.source)])

/-- A token in the listing of tokens. -/
def tokenText : Option Token → String
  | some t => quote t.value
  | none => "none"

/-- The line of the current node in the listing of tokens. -/
def tokenLine (p : Path) (h : Heap) : Except Stop (Option String) := do
  let n := p.node h
  let before ← p.previousToken h
  let after ← p.nextToken h
  let tag := (n.map fun n => (h.node n).tag).getD ""
  return some (padded 8 (h.startText n) ++ " " ++ tag ++ " " ++ Path.accessor p.names ++ " " ++ tokenText before ++
    " -> " ++ tokenText after ++ (if Token.reads before "(" then " (parenthesized)" else "") ++ "\n")

/-- The tokens around every node, a line each, and what stopped the walk if something did. -/
def tokens (h : Heap) (root : NodeId) : List String × Option Stop :=
  let (out, t) := Tour.run h (Path.new (.node root)) tokenLine
  (t.rows, Tour.stop? out)

end Bracketing.Listing
