import Bracketing.Path.Basic

/-!
# Visits

A visit is a computation over some state that ends in one of three ways: it is done with a result, it fails with an
error that its caller may handle, or it stops. A `Cursor` tells where in the state the path and the objects of a
traversal are, so that a visit may keep whatever else it needs beside them.
-/

namespace Bracketing

open Bracketing.Tree

/-- An error of a traversal; `ε` is what visitors add of their own. -/
inductive Failure (ε : Type) where
  /-- The value that should be listed is no list. -/
  | notList (name : Value) (typeName : String)
  /-- The visitor asks not to be led below the current node. -/
  | skipChildren
  | wrapped (context : String) (cause : Failure ε)
  | own (e : ε)
  deriving DecidableEq, Repr

namespace Failure

variable {ε : Type}

/-- The failure asks, at the bottom of its wrappings, not to be led below the current node. -/
def skips : Failure ε → Bool
  | skipChildren => true
  | wrapped _ cause => cause.skips
  | _ => false

/-- The message of a failure, given those of the visitor. -/
def message (say : ε → String) : Failure ε → String
  | notList name typeName => "value is not a list: " ++ name.text ++ " is " ++ typeName
  | skipChildren => "skip children"
  | wrapped context cause => context ++ ": " ++ cause.message say
  | own e => say e

end Failure

/-- How a visit ends. -/
inductive Outcome (ε α : Type) where
  | done (a : α)
  | failed (e : Failure ε)
  | stopped (s : Stop)
  deriving DecidableEq, Repr

/-- A computation over a state. -/
def Visit (σ ε α : Type) : Type := σ → Outcome ε α × σ

namespace Visit

variable {σ ε α β : Type}

/-- The visit that only gives a result. -/
def give (a : α) : Visit σ ε α := fun s => (.done a, s)

/-- One visit after another; the second runs only if the first is done. -/
def andThen (v : Visit σ ε α) (f : α → Visit σ ε β) : Visit σ ε β := fun s =>
  match v s with
  | (.done a, t) => f a t
  | (.failed e, t) => (.failed e, t)
  | (.stopped x, t) => (.stopped x, t)

instance : Monad (Visit σ ε) where
  pure := give
  bind := andThen

/-- The visit that fails. -/
def fail (e : Failure ε) : Visit σ ε α := fun s => (.failed e, s)

/-- The visit that stops. -/
def stop (x : Stop) : Visit σ ε α := fun s => (.stopped x, s)

/-- The state. -/
def state : Visit σ ε σ := fun s => (.done s, s)

/-- Changes the state. -/
def change (f : σ → σ) : Visit σ ε Unit := fun s => (.done (), f s)

/-- The answer to a query, or its stop. -/
def answer : Except Stop α → Visit σ ε α
  | .ok a => give a
  | .error x => stop x

/-- Runs a visit and tells whether it is done; a request to skip children is not passed on. -/
def unlessSkipped (v : Visit σ ε Unit) : Visit σ ε Bool := fun s =>
  match v s with
  | (.done (), t) => (.done true, t)
  | (.failed e, t) => if e.skips then (.done false, t) else (.failed e, t)
  | (.stopped x, t) => (.stopped x, t)

/-- Runs a visit for every item, in order. -/
def forEach (f : α → Visit σ ε Unit) : List α → Visit σ ε Unit
  | [] => give ()
  | a :: rest => andThen (f a) fun _ => forEach f rest

/-- Runs a visit for every item, in order, and collects the results. -/
def collect (f : α → Visit σ ε β) : List α → Visit σ ε (List β)
  | [] => give []
  | a :: rest => andThen (f a) fun b => andThen (collect f rest) fun bs => give (b :: bs)

end Visit

/-- Where a traversal finds the objects and its path in the state. -/
structure Cursor (σ : Type) where
  heap : σ → Heap
  path : σ → Path
  setPath : σ → Path → σ
  /-- How many objects a visitor may add below a walk before the walk is taken for endless. -/
  reserve : Nat

/-- In every valid state, writing the path and reading it agree, and writing it changes nothing else. -/
structure Cursor.Lawful {σ : Type} (c : Cursor σ) (valid : σ → Prop) : Prop where
  path_setPath : ∀ s p, valid s → c.path (c.setPath s p) = p
  heap_setPath : ∀ s p, c.heap (c.setPath s p) = c.heap s
  setPath_path : ∀ s, c.setPath s (c.path s) = s
  setPath_setPath : ∀ s p q, c.setPath (c.setPath s p) q = c.setPath s q
  valid_setPath : ∀ s p, valid s → valid (c.setPath s p)

end Bracketing
