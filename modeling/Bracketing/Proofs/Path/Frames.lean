import Bracketing.Proofs.Path.Indices
import Mathlib.Data.List.Induction

/-!
# Paths as frames

A path is a root, perhaps with a name, and the frames that lead from it to the tip, each a name with the value stored
under it. The stack of a path is those frames laid flat, values and names in turn. Every question about a path can be
asked of the frames as well, where no counting of entries is needed.

- `Frames.stack`: the frames laid flat;
- `Frames.Answers`: the path answers as the frames do;
- `answers_of_stack`: every path whose stack is that of some frames answers as they do;
- `replay_eq_stack`: a chain of ancestors that is replayed gives the stack of its frames.
-/

namespace Bracketing

open Bracketing.Tree

/-- A root, perhaps with a name, and the frames from it to the tip. -/
structure Frames where
  rootName : Option Value := none
  root : Value
  frames : List Path.Link := []
  deriving DecidableEq, Repr

namespace Frames

/-- More frames below the tip. -/
def extend (F : Frames) (more : List Path.Link) : Frames := { F with frames := F.frames ++ more }

/-- The frames laid flat, the value at the tip first. -/
def stack (F : Frames) : List Value := F.frames.foldl Path.Link.push (F.root :: F.rootName.toList)

/-! ## Asking frames -/

/-- The values from the root to the tip. -/
def descent (F : Frames) : List Value := F.root :: F.frames.map (·.value)

/-- The value at the tip. -/
def value (F : Frames) : Value :=
  match F.frames.getLast? with
  | some f => f.value
  | none => F.root

/-- The name of the value at the tip; nothing for a root without a name. -/
def name (F : Frames) : Value :=
  match F.frames.getLast? with
  | some f => f.name
  | none => F.rootName.getD .null

/-- The names from the root to the tip. -/
def names (F : Frames) : List Value := F.rootName.toList ++ F.frames.map (·.name)

/-- The number of entries: two for every frame, one for the root and one for its name. -/
def length (F : Frames) : Nat := 2 * F.frames.length + if F.rootName.isSome then 2 else 1

/-- The values above the tip. -/
def earlier (F : Frames) : List Value := F.descent.dropLast

/-- What the grammar takes for nodes among the values, from the tip to the root. -/
def nodes (F : Frames) (g : Grammar) (h : Heap) : List (Option NodeId) := F.descent.reverse.filterMap (g.asNode h)

/-- The path answers every question as the frames do. -/
structure Answers (F : Frames) (p : Path) (h : Heap) : Prop where
  rootValue : p.rootValue = .ok F.root
  value : p.value = .ok F.value
  name : p.name = F.name
  names : p.names = F.names
  length : p.length = F.length
  node : ∀ k : Int64, 0 ≤ k → p.node h k = ((F.nodes p.grammar h)[k.toInt.toNat]?).join
  parent : ∀ k : Int64, 0 ≤ k → p.parent h k = ((F.nodes p.grammar h)[k.toInt.toNat + 1]?).join
  isDuplicate : ∃ b, p.isDuplicate h = .ok b ∧ (b = true ↔ ∃ v ∈ F.earlier, h.same v F.value = true)

/-! ## Frames laid flat -/

theorem stack_extend (F : Frames) (more : List Path.Link) : (F.extend more).stack = more.foldl Path.Link.push F.stack :=
  List.foldl_append

/-- One frame more puts its value and its name on the stack. -/
theorem stack_concat (name root : _) (fs : List Path.Link) (f : Path.Link) :
    stack ⟨name, root, fs ++ [f]⟩ = f.value :: f.name :: stack ⟨name, root, fs⟩ := by
  simp [stack, Path.Link.push]

theorem values_stack (F : Frames) : Stack.values F.stack = F.descent.reverse := by
  obtain ⟨name, root, fs⟩ := F
  induction fs using List.reverseRecOn with
  | nil => cases name <;> rfl
  | append_singleton fs f ih => simp [stack_concat, Stack.values, ih, descent]

theorem names_stack (F : Frames) : (Stack.names F.stack).reverse = F.names := by
  obtain ⟨name, root, fs⟩ := F
  induction fs using List.reverseRecOn with
  | nil => cases name <;> rfl
  | append_singleton fs f ih => simp [stack_concat, Stack.names, ih, names]

theorem length_stack (F : Frames) : F.stack.length = F.length := by
  obtain ⟨name, root, fs⟩ := F
  induction fs using List.reverseRecOn with
  | nil => cases name <;> rfl
  | append_singleton fs f ih =>
    simp only [stack_concat, List.length_cons, ih, length, List.length_append, List.length_nil]
    omega

/-- The last of the values is the one at the tip. -/
theorem descent_eq (F : Frames) : F.descent = F.earlier ++ [F.value] := by
  obtain ⟨name, root, fs⟩ := F
  induction fs using List.reverseRecOn with
  | nil => rfl
  | append_singleton fs f _ =>
    have hd : descent ⟨name, root, fs ++ [f]⟩ = (root :: fs.map (·.value)) ++ [f.value] := by simp [descent]
    rw [earlier, hd, List.dropLast_concat]
    simp [value]

/-- The stack starts with the value at the tip and goes on with its name, if it has one. -/
theorem stack_eq_cons (F : Frames) : ∃ rest, F.stack = F.value :: rest ∧ rest.headD .null = F.name := by
  obtain ⟨name, root, fs⟩ := F
  induction fs using List.reverseRecOn with
  | nil => cases name <;> exact ⟨_, rfl, rfl⟩
  | append_singleton fs f _ =>
    refine ⟨f.name :: stack ⟨name, root, fs⟩, ?_, ?_⟩
    · simp [stack_concat, value]
    · simp [Frames.name]

end Frames

/-! ## Chains of ancestors -/

namespace Path.Ancestry

/-- What is found going up does not depend on what has been found so far. -/
theorem climb_eq (a : Path.Ancestry) (found : List Value) : a.climb found = found ++ a.climb [] := by
  induction a generalizing found with
  | root l =>
    simp only [climb]
    split <;> simp
  | under above l ih =>
    rw [climb, climb, ih, ih ([] ++ _)]
    simp

/-- A record under another puts its value and its name on the stack. -/
theorem stack_under (above : Path.Ancestry) (l : Path.Link) :
    (under above l).stack = l.value :: l.name :: above.stack := by
  rw [stack, climb, climb_eq, stack, climb_eq above [_]]
  simp [link]

end Path.Ancestry

/-- A chain of ancestors that is replayed gives the stack of its frames. -/
theorem Frames.replay_eq_stack (root : Path.Link) (rest : List Path.Link) : Path.replay (root :: rest) =
    Frames.stack ⟨if root.name = .null then none else some root.name, root.value, rest⟩ := by
  induction rest using List.reverseRecOn with
  | nil => by_cases hn : root.name = .null <;> simp [Path.replay, Path.Ancestry.ofLinks, Path.Ancestry.stack,
      Path.Ancestry.climb, Path.Ancestry.link, Frames.stack, hn]
  | append_singleton rest l ih =>
    have htip : Path.Ancestry.ofLinks root (rest ++ [l]) = .under (.ofLinks root rest) l := by
      simp [Path.Ancestry.ofLinks]
    rw [Path.replay, htip, Path.Ancestry.stack_under, Frames.stack_concat, ← ih]
    rfl

/-! ## Paths and frames -/

namespace Frames

/-- A path answers as the frames that its stack is made of. -/
theorem answers_of_stack {F : Frames} {p : Path} (hp : p.stack = F.stack) (h : Heap) : F.Answers p h := by
  have hvalues : p.values = F.value :: F.earlier.reverse := by
    rw [Path.values, hp, values_stack, descent_eq, List.reverse_append]
    rfl
  obtain ⟨rest, hstack, hname⟩ := F.stack_eq_cons
  have hnodes : p.lineage h = F.nodes p.grammar h := by
    rw [Path.lineage, Path.values, hp, values_stack]
    rfl
  refine ⟨?_, ?_, ?_, ?_, ?_, fun k hk => ?_, fun k hk => ?_, ?_⟩
  · have : p.values.getLast? = some F.root := by
      rw [Path.values, hp, values_stack, List.getLast?_reverse]
      rfl
    rw [Path.rootValue_eq, this]
    rfl
  · rw [Path.value, hp, hstack]
  · rw [Path.name, hp, hstack, ← hname]
    cases rest <;> rfl
  · rw [Path.names_eq, hp, names_stack]
  · rw [Path.length, hp, length_stack]
  · rw [Path.node_eq_lineage, Path.passedOver_eq hk, hnodes]
  · rw [Path.parent, Path.node_eq_lineage, Path.passedOver_succ hk, hnodes]
  · refine ⟨_, by rw [Path.isDuplicate, hvalues], ?_⟩
    simp

end Frames

end Bracketing
