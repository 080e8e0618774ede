import Bracketing.Proofs.Path.Starts

/-!
# Replaying an ancestry

Another traversal hands over the ancestry of a value as a chain of records, each with a name and a value, and the path is
built by going up from the tip. Whatever the names and values are, the path comes out as if its root had been given first
and every further record pushed on it.

- `listing_stack`: the entries of frames from the root to the tip;
- `chain_stack`: the records read off the stack of frames are its root and those frames;
- `replay_rebuilds`: what a chain of ancestors gives, and that the chain read off a path gives the path back, unless its
  root has nothing for a name.
-/

namespace Bracketing

open Bracketing.Tree

/-- The records of a path, root first, as they are read off its stack. -/
def Path.chain : List Value → List Path.Link
  | [] => []
  | [v] => [⟨.null, v⟩]
  | [v, name] => [⟨name, v⟩]
  | v :: name :: rest => chain rest ++ [⟨name, v⟩]

namespace Frames

/-- Names and values from the root to the tip, a root without a name first. -/
theorem listing_stack (F : Frames) :
    F.stack.reverse = F.rootName.toList ++ F.root :: F.frames.flatMap fun l => [l.name, l.value] := by
  obtain ⟨name, root, fs⟩ := F
  induction fs using List.reverseRecOn with
  | nil => cases name <;> rfl
  | append_singleton fs f ih => simp [stack_concat, ih]

/-- The records read off frames laid flat are the root, with nothing for the name that it may lack, and the frames. -/
theorem chain_stack (F : Frames) : Path.chain F.stack = ⟨F.rootName.getD .null, F.root⟩ :: F.frames := by
  obtain ⟨name, root, fs⟩ := F
  induction fs using List.reverseRecOn with
  | nil => cases name <;> rfl
  | append_singleton fs f ih =>
    obtain ⟨rest, hstack, -⟩ := stack_eq_cons ⟨name, root, fs⟩
    rw [stack_concat]
    rw [hstack] at ih ⊢
    rw [Path.chain, ih]
    · rfl
    · simp

/-- Replaying the records read off frames gives the frames back, unless nothing is the name of their root. -/
theorem replay_chain_iff (F : Frames) : Path.replay (Path.chain F.stack) = F.stack ↔ F.rootName ≠ some .null := by
  rw [chain_stack, replay_eq_stack]
  obtain ⟨name, root, fs⟩ := F
  cases name with
  | none => simp
  | some name =>
    by_cases hn : name = .null
    · subst hn
      -- the root has lost its name, and with it one entry
      have hlen : (stack ⟨none, root, fs⟩).length ≠ (stack ⟨some .null, root, fs⟩).length := by
        simp [length_stack, length]
      simpa using fun h => hlen (congrArg List.length h)
    · simp [hn]

end Frames

/-- Pushing records one after another leads the path along them. -/
theorem Path.foldl_push (p : Path) (ls : List Path.Link) :
    ls.foldl (fun q l => q.push l.name l.value) p = p.along ls := by
  induction ls generalizing p with
  | nil => rfl
  | cons l ls ih => exact ih (p.push l.name l.value)

/-- **A replayed ancestry is the path that it records.** Its entries are those of the records from the root to the tip,
names before values, where only a root may go without a name; and it is the path made from the root with the further
records pushed one after another. The chain read off a path that was made from a root, at any depth of open traversals,
gives its stack back just if nothing is not the name of that root. -/
theorem replay_rebuilds (root : Path.Link) (rest : List Path.Link) (o : Path.Options) {name : Option Value} {v : Value}
    {p : Path} (hp : Obtained name v p) :
    (Path.ofStack (Path.replay (root :: rest)) o).stack.reverse =
      (if root.name = .null then [] else [root.name]) ++ root.value :: rest.flatMap (fun l => [l.name, l.value]) ∧
    Path.ofStack (Path.replay (root :: rest)) o = rest.foldl (fun q l => q.push l.name l.value)
      (if root.name = .null then .new root.value o else .named root.name root.value o) ∧
    ((Path.ofStack (Path.replay (Path.chain p.stack)) o).stack = p.stack ↔ name ≠ some .null) := by
  refine ⟨?_, ?_, ?_⟩
  · show (Path.replay (root :: rest)).reverse = _
    rw [Frames.replay_eq_stack, Frames.listing_stack]
    by_cases hn : root.name = .null <;> simp [hn]
  · rw [Path.foldl_push, Frames.replay_eq_stack]
    by_cases hn : root.name = .null <;>
      simp [hn, Path.along, Path.ofStack, Path.new, Path.named, Frames.stack]
  · obtain ⟨fs, hfs⟩ := hp.exists_frames
    show Path.replay (Path.chain p.stack) = p.stack ↔ _
    rw [hfs]
    exact Frames.replay_chain_iff _

/-- A tour of a block from a path that has a name for its root. -/
def namedBlock : Tour Unit where
  heap := {
    nodes := #[{ tag := "BlockStatement", fields := .ofEntries [("body", .list ⟨0⟩)] }]
    lists := #[[.null, .node ⟨0⟩]] }
  path := .named (.str "program") (.node ⟨0⟩)

/-- The path below the block, where nothing was asked for by the name of nothing. -/
def namelessPath : Path := namedBlock.path.along [⟨.str "body", .list ⟨0⟩⟩, ⟨.null, .null⟩]

theorem replay_rebuilds_nameless : Obtained (some (.str "program")) (.node ⟨0⟩) namelessPath ∧
    (Path.ofStack (Path.replay [⟨.null, .node ⟨0⟩⟩, ⟨.null, .null⟩, ⟨.index 1, .node ⟨0⟩⟩])).stack.reverse =
      [.node ⟨0⟩, .null, .null, .index 1, .node ⟨0⟩] ∧
    (Path.ofStack (Path.replay (Path.chain namelessPath.stack))).stack = namelessPath.stack := by
  have hp : Obtained (some (.str "program")) (.node ⟨0⟩) namelessPath :=
    .visited (c := Tour.cursor) (v := (pure () : Visit (Tour Unit) Empty Unit)) (s := namedBlock)
      (t := { namedBlock with path := namelessPath }) Tour.cursor_lawful (keeps_pure ()) trivial (.named _ _ {})
      (.call [.str "body", .null]) (by
        have : (Operation.call [.str "body", .null]).starts Tour.cursor (pure () : Visit (Tour Unit) Empty Unit)
            namedBlock = [{ namedBlock with path := namelessPath }] := rfl
        simp [this])
  obtain ⟨hlisting, -, hback⟩ :=
    replay_rebuilds ⟨.null, .node ⟨0⟩⟩ [⟨.null, .null⟩, ⟨.index 1, .node ⟨0⟩⟩] {} hp
  exact ⟨hp, hlisting, hback.2 (by decide)⟩

example : Path.replay [⟨.str "program", .node ⟨0⟩⟩, ⟨.null, .null⟩] = [.null, .null, .node ⟨0⟩, .str "program"] ∧
    Path.replay (Path.chain (Path.named .null (.node ⟨0⟩)).stack) = [.node ⟨0⟩] := by decide

end Bracketing
