import Bracketing.Source.Position
import Bracketing.Tree.Value

/-!
# What stops a computation

A query about a path may find the tree in disagreement with the path (`Invariant`), and then it stops instead of
answering. `Stop` lists everything that ends a computation without an answer.
-/

namespace Bracketing

open Bracketing.Source Bracketing.Tree

/-- What a broken invariant is about. -/
inductive Invariant.Kind where
  /-- A parent does not hold the child that the path records under a slot. -/
  | edge
  /-- The stack of the path has an impossible shape. -/
  | stack
  | other
  deriving DecidableEq, Inhabited, Repr

/-- The name of a kind of broken invariant. -/
def Invariant.Kind.text : Invariant.Kind → String
  | edge => "edge mismatch"
  | stack => "malformed stack"
  | other => "invariant"

/-- A broken invariant: what failed, and the node, slot and position where it was seen. -/
structure Invariant where
  kind : Invariant.Kind
  detail : String
  tag : String := ""
  slot : Value := .null
  position : Position := {}
  deriving DecidableEq, Repr

namespace Invariant

/-- The message of a broken invariant; what is not known of the place is left out. -/
def message (e : Invariant) : String :=
  e.kind.text ++ ": " ++ e.detail ++
    (if e.tag = "" then ""
      else " (" ++ e.tag ++ (if e.slot = .null then "" else "." ++ e.slot.text) ++ ")") ++
    (if e.position.isSet then " at " ++ e.position.text else "")

/-- The path has lost its root. -/
def noRoot : Invariant := { kind := .stack, detail := "path has no root" }

end Invariant

/-- An error as it reaches a caller: a broken invariant, an error that gives another one a context, or any other. -/
inductive Cause where
  | invariant (e : Invariant)
  | wrapped (context : String) (cause : Cause)
  | other (message : String)
  deriving DecidableEq, Repr

/-- The error is a broken invariant, at the bottom of its contexts. -/
def Cause.isInvariant : Cause → Bool
  | invariant _ => true
  | wrapped _ cause => cause.isInvariant
  | other _ => false

/-- What ends a computation without an answer. -/
inductive Stop where
  /-- The path and the tree disagree. -/
  | broken (e : Invariant)
  /-- Something was asked of an object that is not there. -/
  | missing
  /-- A visitor gave up. -/
  | raised (message : String)
  /-- The computation goes on for ever. -/
  | endless
  deriving DecidableEq, Repr

end Bracketing
