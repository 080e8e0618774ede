import Bracketing.Path.Traverse

/-!
# Traversals restore the path

A traversal may put entries on the path and takes them off again, however its visitor ends. Two properties of visits
carry this:

- `Extends`: the visit leaves entries of its own on top of the path, and nothing below them changes;
- `Keeps`: the visit leaves the path as it was.

Both are about states with a property `I`, which the visit keeps. `Cursor.restoring` makes the second of the first
(`Extends.restoring`), and so all four traversals keep the path if their visitor does
(`Keeps.run`). A visitor that moves the path by traversals only is a `Program`, and every program keeps the path
(`Program.keeps`).
-/

namespace Bracketing

open Bracketing.Tree

variable {σ ε α β : Type} {c : Cursor σ} {I : σ → Prop}

/-! ## Visits and the path -/

/-- The path with more entries on top. -/
def Path.atop (p : Path) (extra : List Value) : Path := { p with stack := extra ++ p.stack }

theorem Path.atop_atop (p : Path) (xs ys : List Value) : (p.atop xs).atop ys = p.atop (ys ++ xs) := by
  simp [Path.atop]

/-- Taking a path back to its length takes off what was put on top. -/
theorem Path.cut_atop (p : Path) (extra : List Value) : (p.atop extra).cut p.length = p := by
  simp [Path.atop, Path.cut, Path.length]

/-- From states with the property, the visit leaves the path as it was and a state with the property. -/
def Keeps (c : Cursor σ) (I : σ → Prop) (v : Visit σ ε α) : Prop :=
  ∀ s, I s → c.path (v s).2 = c.path s ∧ I (v s).2

/-- From states with the property, the visit leaves entries on top of the path, changes nothing below them and leaves a
state with the property. -/
def Extends (c : Cursor σ) (I : σ → Prop) (v : Visit σ ε α) : Prop :=
  ∀ s, I s → (∃ extra, c.path (v s).2 = (c.path s).atop extra) ∧ I (v s).2

theorem Keeps.extends {v : Visit σ ε α} (hv : Keeps c I v) : Extends c I v :=
  fun s hs => ⟨⟨[], (hv s hs).1⟩, (hv s hs).2⟩

theorem Keeps.bind {v : Visit σ ε α} {f : α → Visit σ ε β} (hv : Keeps c I v) (hf : ∀ a, Keeps c I (f a)) :
    Keeps c I (v >>= f) := by
  intro s hs
  obtain ⟨h, h'⟩ := hv s hs
  show c.path (v.andThen f s).2 = _ ∧ I (v.andThen f s).2
  unfold Visit.andThen
  split <;> rename_i hr <;> rw [hr] at h h'
  · rename_i a t
    exact ⟨((hf a t h').1).trans h, (hf a t h').2⟩
  · exact ⟨h, h'⟩
  · exact ⟨h, h'⟩

theorem Extends.bind {v : Visit σ ε α} {f : α → Visit σ ε β} (hv : Extends c I v)
    (hf : ∀ a, Extends c I (f a)) : Extends c I (v >>= f) := by
  intro s hs
  obtain ⟨⟨extra, h⟩, h'⟩ := hv s hs
  show (∃ extra, c.path (v.andThen f s).2 = _) ∧ I (v.andThen f s).2
  unfold Visit.andThen
  split <;> rename_i hr <;> rw [hr] at h h'
  · rename_i a t
    obtain ⟨⟨more, hm⟩, hm'⟩ := hf a t h'
    exact ⟨⟨more ++ extra, by rw [hm, h, Path.atop_atop]⟩, hm'⟩
  · exact ⟨⟨extra, h⟩, h'⟩
  · exact ⟨⟨extra, h⟩, h'⟩

theorem keeps_pure (a : α) : Keeps c I (pure a : Visit σ ε α) := fun _ hs => ⟨rfl, hs⟩

theorem keeps_fail (e : Failure ε) : Keeps c I (Visit.fail e : Visit σ ε α) := fun _ hs => ⟨rfl, hs⟩

theorem keeps_stop (x : Stop) : Keeps c I (Visit.stop x : Visit σ ε α) := fun _ hs => ⟨rfl, hs⟩

theorem keeps_state : Keeps c I (Visit.state : Visit σ ε σ) := fun _ hs => ⟨rfl, hs⟩

theorem keeps_answer (x : Except Stop α) : Keeps c I (Visit.answer x : Visit σ ε α) := by
  cases x with
  | ok a => exact keeps_pure a
  | error e => exact keeps_stop e

theorem Keeps.unlessSkipped {v : Visit σ ε Unit} (hv : Keeps c I v) : Keeps c I v.unlessSkipped := by
  intro s hs
  have h := hv s hs
  unfold Visit.unlessSkipped
  split <;> rename_i hr <;> rw [hr] at h
  · exact h
  · split <;> exact h
  · exact h

theorem Keeps.forEach {f : α → Visit σ ε Unit} (hf : ∀ a, Keeps c I (f a)) :
    ∀ as, Keeps c I (Visit.forEach f as)
  | [] => keeps_pure ()
  | a :: as => (hf a).bind fun _ => Keeps.forEach hf as

theorem Keeps.collect {f : α → Visit σ ε β} (hf : ∀ a, Keeps c I (f a)) :
    ∀ as, Keeps c I (Visit.collect f as)
  | [] => keeps_pure []
  | a :: as => (hf a).bind fun b => (Keeps.collect hf as).bind fun bs => keeps_pure (b :: bs)

/-- What a walk does at a node that it enters: the visit, and the fields unless the visit asks to skip them. -/
def Cursor.enter (c : Cursor σ) (v below : Visit σ ε Unit) (tip : Value) : Visit σ ε Unit := do
  if ← v.unlessSkipped then
    Visit.forEach (fun f => c.atField f.1 below f.2) (← c.fieldsOf tip)

/-! ## Moving the path -/

section Moves

theorem keeps_indices (l : ListId) : Keeps c I (c.indices l : Visit σ ε (List Nat)) :=
  keeps_state.bind fun _ => keeps_pure _

theorem keeps_fieldsOf (v : Value) : Keeps c I (c.fieldsOf v : Visit σ ε (List (NodeId × String))) := by
  unfold Cursor.fieldsOf
  split
  · exact keeps_state.bind fun s => keeps_pure _
  · exact keeps_pure _

variable (hc : c.Lawful I)
include hc

/-- What is put on top of the path is taken off again. -/
theorem Extends.restoring {v : Visit σ ε α} (hv : Extends c I v) : Keeps c I (c.restoring v) := by
  intro s hs
  obtain ⟨⟨extra, h⟩, h'⟩ := hv s hs
  refine ⟨?_, hc.valid_setPath _ _ h'⟩
  simp only [Cursor.restoring, hc.path_setPath _ _ h', h, Path.cut_atop]

theorem extends_push (name value : Value) : Extends c I (c.push name value : Visit σ ε Unit) := fun s hs =>
  ⟨⟨[value, name], by simp [Cursor.push, Visit.change, hc.path_setPath _ _ hs, Path.push, Path.atop]⟩,
    hc.valid_setPath _ _ hs⟩

theorem extends_descendFrom : ∀ (names : List Value) (v : Value),
    Extends c I (c.descendFrom v names : Visit σ ε Value)
  | [], v => (keeps_pure v).extends
  | name :: names, _ => keeps_state.extends.bind fun _ =>
      (extends_push hc name _).bind fun _ => extends_descendFrom names _

theorem extends_descend (names : List Value) : Extends c I (c.descend names : Visit σ ε Value) := by
  refine keeps_state.extends.bind fun s => ?_
  split
  · exact extends_descendFrom hc names _
  · exact (keeps_stop _).extends

theorem extends_descendList (names : List Value) : Extends c I (c.descendList names : Visit σ ε ListId) := by
  refine (extends_descend hc names).bind fun _ => ?_
  split
  · exact (keeps_pure _).extends
  · exact keeps_state.extends.bind fun s => (keeps_fail _).extends

/-! ## The traversals -/

theorem Keeps.call {v : Visit σ ε α} (hv : Keeps c I v) (names : List Value) : Keeps c I (c.call names v) :=
  ((extends_descend hc names).bind fun _ => hv.extends).restoring hc

theorem Keeps.atElement {v : Visit σ ε α} (hv : Keeps c I v) (l : ListId) (i : Nat) :
    Keeps c I (c.atElement l v i) := by
  refine keeps_state.bind fun s => ?_
  split
  · exact keeps_pure _
  · exact ((extends_push hc _ _).bind fun _ => hv.extends.bind fun a => (keeps_pure (some a)).extends).restoring hc

theorem Keeps.each {v : Visit σ ε Unit} (hv : Keeps c I v) (names : List Value) :
    Keeps c I (c.each names v) := by
  refine ((extends_descendList hc names).bind fun l => ?_).restoring hc
  refine (keeps_indices l).extends.bind fun is => (Keeps.forEach (fun i => ?_) is).extends
  exact (hv.atElement hc l i).bind fun _ => keeps_pure ()

theorem Keeps.map {v : Visit σ ε α} (hv : Keeps c I v) (names : List Value) : Keeps c I (c.map names v) := by
  refine ((extends_descendList hc names).bind fun l => ?_).restoring hc
  exact (keeps_indices l).extends.bind fun is => (Keeps.collect (fun i => hv.atElement hc l i) is).extends

theorem Keeps.atField {below : Visit σ ε Unit} (hb : Keeps c I below) (n : NodeId) (key : String) :
    Keeps c I (c.atField n below key) := by
  refine keeps_state.bind fun s => ?_
  split
  · exact hb.call hc _
  · exact hb.call hc _
  · exact hb.call hc _
  · exact keeps_pure ()

theorem Keeps.enter {v below : Visit σ ε Unit} (hv : Keeps c I v) (hb : Keeps c I below) (tip : Value) :
    Keeps c I (c.enter v below tip) := by
  refine hv.unlessSkipped.bind fun enter => ?_
  split
  · exact (keeps_fieldsOf tip).bind fun fs => Keeps.forEach (fun f => hb.atField hc f.1 f.2) fs
  · exact keeps_pure ()

theorem Keeps.walkWithin {v : Visit σ ε Unit} (hv : Keeps c I v) : ∀ depth, Keeps c I (c.walkWithin v depth)
  | 0 => keeps_stop _
  | depth + 1 => by
    have hb := hv.walkWithin depth
    refine keeps_state.bind fun s => (keeps_answer _).bind fun tip => (keeps_answer _).bind fun met => ?_
    split
    · split
      · exact hv.enter hc hb _
      · exact keeps_pure ()
    · split
      · exact hv.enter hc hb _
      · exact keeps_pure ()
    · split
      · exact hb.each hc []
      · exact keeps_pure ()
    · exact keeps_pure ()

theorem Keeps.walk {v : Visit σ ε Unit} (hv : Keeps c I v) : Keeps c I (c.walk v) :=
  fun s => hv.walkWithin hc _ s

end Moves

/-! ## Visitors that move the path by traversals only -/

/-- A traversal to be made. -/
inductive Operation where
  | call (names : List Value)
  | each (names : List Value)
  | map (names : List Value)
  | walk
  deriving DecidableEq

/-- Makes a traversal with a visitor. What the visits of elements give is collected; a call gives one result and the
others none. -/
def Operation.run (c : Cursor σ) (v : Visit σ ε β) : Operation → Visit σ ε (List (Option β))
  | .call names => do return [some (← c.call names v)]
  | .each names => do
    c.each names do let _ ← v
    return []
  | .map names => c.map names v
  | .walk => do
    c.walk do let _ ← v
    return []

/-- A traversal keeps the path if its visitor does. -/
theorem Keeps.run (hc : c.Lawful I) {v : Visit σ ε β} (hv : Keeps c I v) (op : Operation) :
    Keeps c I (op.run c v) := by
  have hunit : Keeps c I (do let _ ← v : Visit σ ε Unit) := hv.bind fun _ => keeps_pure ()
  cases op with
  | call names => exact (hv.call hc names).bind fun b => keeps_pure [some b]
  | each names => exact (hunit.each hc names).bind fun _ => keeps_pure []
  | map names => exact hv.map hc names
  | walk => exact (hunit.walk hc).bind fun _ => keeps_pure []

/-- A visitor of states with the property `I`. It may look at the state, change it apart from the path, make traversals
with other visitors and go on with their outcome as it likes, fail and stop. -/
inductive Program (I : σ → Prop) (ε β : Type) where
  | give (b : β)
  | fail (e : Failure ε)
  | stop (x : Stop)
  | ask (next : σ → Program I ε β)
  | change (f : σ → σ) (hf : ∀ s, I s → I (f s)) (next : Program I ε β)
  | move (op : Operation) (visitor : Program I ε β) (next : Outcome ε (List (Option β)) → Program I ε β)

namespace Program

/-- What a visitor does. -/
def run (c : Cursor σ) : Program I ε β → Visit σ ε β
  | give b => Visit.give b
  | fail e => Visit.fail e
  | stop x => Visit.stop x
  | ask next => fun s => (next s).run c s
  | change f _ next => fun s => next.run c (c.setPath (f s) (c.path s))
  | move op visitor next => fun s =>
    let (out, t) := op.run c (visitor.run c) s
    (next out).run c t

/-- Every visitor keeps the path. -/
theorem keeps (hc : c.Lawful I) : ∀ p : Program I ε β, Keeps c I (p.run c)
  | give b => keeps_pure b
  | fail e => keeps_fail e
  | stop x => keeps_stop x
  | ask next => fun s => (next s).keeps hc s
  | change f hf next => fun s hs => by
    have hs' := hc.valid_setPath _ (c.path s) (hf s hs)
    obtain ⟨hp, hi⟩ := next.keeps hc _ hs'
    exact ⟨hp.trans (hc.path_setPath _ _ (hf s hs)), hi⟩
  | move op visitor next => fun s hs => by
    obtain ⟨hp, hi⟩ := (visitor.keeps hc).run hc op s hs
    obtain ⟨hp', hi'⟩ := (next _).keeps hc _ hi
    exact ⟨hp'.trans hp, hi'⟩

end Program

end Bracketing
