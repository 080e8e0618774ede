import Bracketing.Proofs.Path.WalkOrder
import Bracketing.Proofs.Verdict.Answer

/-!
# Walks leave no broken stack

The decisions about parentheses trust the stack: they look up a node under the name that the stack gives for it, and
stop where the tree does not hold it there. On a stack that a walk makes they never do.

* **One step** (`resolve_of_mem_children`): a child of a stack has on top what its name resolves to.
* **All steps** (`Reached.trail`, `Reached.below_root`): every stack reached is a trail through what lies below the root.
* **Decisions** (`Trail.decide_or_endless`): a decision on a trail gives a verdict, or searches a cyclic tree for a call
  without end.
* **Every walk** (`walk_unbroken`): so it is at every run of the visitor, on cyclic trees too and for every grammar.
-/

namespace Bracketing

open Bracketing.Tree Stack

variable {g : Grammar} {h : Heap} {start x : List Value}

/-! ## The stacks of a walk -/

/-- A child of a stack has the name of a member on top of it, and the member. -/
theorem resolve_of_mem_children {v : Value} {rest : List Value} (hx : x ∈ children h (v :: rest)) :
    ∃ name, x = Path.resolve h v name :: name :: v :: rest ∧ h.Member v (Path.resolve h v name) := by
  unfold children at hx
  split at hx
  · rename_i n _ hst
    obtain ⟨rfl, rfl⟩ := List.cons.inj hst
    obtain ⟨k, hk, rfl⟩ := List.mem_map.1 hx
    exact ⟨.str k, rfl, member_of_branches (List.mem_filter.1 hk).2⟩
  · rename_i l _ hst
    obtain ⟨rfl, rfl⟩ := List.cons.inj hst
    obtain ⟨i, hi, rfl⟩ := List.mem_map.1 hx
    have he := List.getElem?_eq_getElem (List.mem_range.1 (List.mem_filter.1 hi).1)
    have hr := resolve_element he
    refine ⟨.index i, ?_, ?_⟩
    · simp [hr, atIndex, elementAt, he]
    · rw [hr]
      exact Heap.member_of_mem (List.mem_of_getElem? he)
  · cases hx

/-- A walk goes on from what it enters, if that has members. -/
theorem passes_of_enters {v w : Value} {rest : List Value} (he : enters g h (v :: rest) = true)
    (hm : h.Member v w) : Passes g h v := by
  obtain ⟨earlier, hv⟩ := values_cons v rest
  unfold enters at he
  rw [hv] at he
  cases v with
  | node n => exact (Bool.and_eq_true _ _ ▸ he).1
  | list l => trivial
  | _ => exact (Heap.inside_of_member hm).elim

namespace Reached

theorem enters_self (hx : Reached g h start x) : enters g h x = true := by
  cases hx with
  | start he => exact he
  | child _ _ he => exact he

/-- Every stack reached from a trail is one. -/
theorem trail (hs : Trail g h start) (hx : Reached g h start x) : Trail g h x := by
  induction hx with
  | start => exact hs
  | @child st x hst hx _ ih =>
    obtain ⟨v, rest, rfl⟩ := List.exists_cons_of_ne_nil ih.ne_nil
    obtain ⟨name, rfl, hm⟩ := resolve_of_mem_children hx
    exact .down name ih (passes_of_enters hst.enters_self hm)

theorem suffix (hx : Reached g h start x) : start <:+ x := by
  induction hx with
  | start => exact List.suffix_rfl
  | child _ hx _ ih =>
    obtain ⟨v, name, rfl⟩ := exists_of_mem_children hx
    exact ih.trans (List.suffix_append [v, name] _)

/-- The values of every stack reached from a root are at or below it. -/
theorem below_root {root : Value} (hs : Stack.values start = [root]) (hx : Reached g h start x) :
    ∀ v ∈ Stack.values x, h.Below root v := by
  induction hx with
  | start =>
    intro v hv
    rw [hs, List.mem_singleton] at hv
    exact hv ▸ .refl
  | @child st x hst hx _ ih =>
    cases st with
    | nil => cases hx
    | cons tip rest =>
      obtain ⟨name, rfl, hm⟩ := resolve_of_mem_children hx
      obtain ⟨earlier, hv⟩ := values_cons tip rest
      refine List.forall_mem_cons.2 ⟨(ih tip ?_).tail hm, ih⟩
      rw [hv]
      exact List.mem_cons_self

end Reached

/-! ## Decisions -/

/-- A decision on a trail gives a verdict, unless the tip is a node with a cycle below it, where the search for a call
may not end. -/
theorem Trail.decide_or_endless {p : Path} (ht : Trail p.grammar h p.stack) (hf : FlatStack h p.stack) (b : Bool) :
    (∃ v, p.decide h b = .ok v) ∨
      (p.decide h b = .error .endless ∧ ∃ n, p.stack.head? = some (.node n) ∧ ¬ h.Acyclic (.node n)) := by
  cases hd : p.decide h b with
  | ok v => exact .inl ⟨v, rfl⟩
  | error x =>
    obtain ⟨n, hn, hc⟩ := ht.containsCall_of_decide hf hd
    refine .inr ⟨by rw [eq_endless_of_containsCall hc], n, hn, fun ha => ?_⟩
    exact containsCall_ne_error ha x hc

/-! ## Every walk -/

variable {σ ε β : Type}

/-- A walk from a root, named or not, whose visitor leaves the path and the objects as they are, runs the visitor only
at stacks that go on from the root by the names on them. If no sequence below the root holds a list among its
expressions, leading position is decided there, and parentheses are too, unless the search for a call runs into a
cycle: no decision finds the stack broken. -/
theorem walk_unbroken {c : Cursor σ} {I : σ → Prop} (hc : c.Lawful I) {v : Visit σ ε β} {s : σ} (hI : I s)
    (hk : Keeps c (fun t => I t ∧ c.heap t = c.heap s) v) {root : Value}
    (hroot : (c.path s).stack = [root] ∨ ∃ name, (c.path s).stack = [root, name]) :
    ∃ runs out t, c.walk (do let _ ← v) s = (out, t) ∧
      (c.beside (List (Run ε β))).walk (do let _ ← c.recorded v) (s, []) = (out, (t, runs)) ∧
      ∀ r ∈ runs, Trail (c.path s).grammar (c.heap s) r.stack ∧ (c.path s).stack <:+ r.stack ∧
        ((∀ n, (c.heap s).Below root (.node n) → FlatSequence (c.heap s) n) →
          ∀ p : Path, p.grammar = (c.path s).grammar → p.stack = r.stack → ∀ b,
            (∃ leads, p.leads (c.heap s) b = .ok leads) ∧
            ((∃ verdict, p.decide (c.heap s) b = .ok verdict) ∨
              (p.decide (c.heap s) b = .error .endless ∧
                ∃ n, r.stack.head? = some (.node n) ∧ ¬ (c.heap s).Acyclic (.node n)))) := by
  have htrail : Trail (c.path s).grammar (c.heap s) (c.path s).stack := by
    rcases hroot with hs | ⟨name, hs⟩ <;> rw [hs]
    · exact .root root
    · exact .named root name
  have hvalues : Stack.values (c.path s).stack = [root] := by
    rcases hroot with hs | ⟨name, hs⟩ <;> rw [hs] <;> rfl
  obtain ⟨listing, runs, out, t, hw, hw', hl, ht⟩ := exists_traces_walk hc hI hk htrail.ne_nil
  refine ⟨runs, out, t, hw, hw', fun r hr => ?_⟩
  have hreach := ((hl.mem_iff _).1 (ht.stack_mem r hr)).1
  refine ⟨hreach.trail htrail, hreach.suffix, fun hflat p hg hp b => ?_⟩
  have htr : Trail p.grammar (c.heap s) p.stack := hg ▸ hp ▸ hreach.trail htrail
  have hfl : FlatStack (c.heap s) p.stack := fun n hn => hflat n (hreach.below_root hvalues _ (hp ▸ hn))
  refine ⟨htr.exists_leads hfl b, ?_⟩
  rw [← hp]
  exact htr.decide_or_endless hfl b

/-- The statement `new (a, b).c()`, where the property is the construction again. -/
def selfConstruction : Heap where
  nodes := #[
    { tag := "ExpressionStatement", fields := .ofEntries [("expression", .node ⟨1⟩)] },
    { tag := "NewExpression", fields := .ofEntries [("callee", .node ⟨2⟩)] },
    { tag := "MemberExpression", fields := .ofEntries [("object", .node ⟨3⟩), ("property", .node ⟨1⟩)] },
    { tag := "SequenceExpression", fields := .ofEntries [("expressions", .list ⟨0⟩)] },
    { tag := "Identifier" }]
  lists := #[[.node ⟨4⟩, .node ⟨4⟩]]

theorem flat_selfConstruction (n : NodeId) : FlatSequence selfConstruction n := by
  intro _ l hl
  unfold Heap.elements at hl
  split at hl
  · rename_i m _
    obtain ⟨_ | i⟩ := m
    · simp [Heap.list, selfConstruction] at hl
    · simp [Heap.list, selfConstruction] at hl
  · cases hl

/-- A walk over the statement, under a name. -/
def constructionTour : Tour Unit where
  heap := selfConstruction
  path := .named (.str "root") (.node ⟨0⟩)

theorem walk_unbroken_construction : Tour.cursor.path constructionTour = .named (.str "root") (.node ⟨0⟩) ∧
    ∃ runs out t, Tour.cursor.walk (do let _ ← (pure () : Visit (Tour Unit) Empty Unit)) constructionTour = (out, t) ∧
      (Tour.cursor.beside (List (Run Empty Unit))).walk (do let _ ← Tour.cursor.recorded (pure ()))
        (constructionTour, []) = (out, (t, runs)) ∧
      ∀ r ∈ runs, Trail .standard selfConstruction r.stack ∧ ∀ b,
        (∃ leads, (Path.ofStack r.stack).leads selfConstruction b = .ok leads) ∧
        ((∃ verdict, (Path.ofStack r.stack).decide selfConstruction b = .ok verdict) ∨
          ((Path.ofStack r.stack).decide selfConstruction b = .error .endless ∧
            ∃ n, r.stack.head? = some (.node n) ∧ ¬ selfConstruction.Acyclic (.node n))) := by
  obtain ⟨runs, out, t, hw, hw', hr⟩ := walk_unbroken (s := constructionTour) (ε := Empty) Tour.cursor_lawful trivial
    (keeps_pure ()) (.inr ⟨.str "root", rfl⟩)
  refine ⟨rfl, runs, out, t, hw, hw', fun r hm => ⟨(hr r hm).1, fun b => ?_⟩⟩
  exact (hr r hm).2.2 (fun n _ => flat_selfConstruction n) (Path.ofStack r.stack) rfl rfl b

example : (Path.ofStack [.node ⟨2⟩, .str "callee", .node ⟨1⟩, .str "expression", .node ⟨0⟩]).decide selfConstruction
    false = .error .endless := by
  decide

end Bracketing
