import Bracketing.Proofs.Path.Inspection
import Bracketing.Proofs.Report.Tour
import Bracketing.Proofs.Verdict.Unbroken

/-!
# The paths of a walk

`Walked` says which paths a walk by the standard grammar comes by, one member after another, with no list of them and no
look at what has been met before. In an acyclic tree nothing is met again, so that it comes to the same.

* **Stacks** (`Reached.child_of_passes`): in an acyclic tree a walk comes to every child that it may go on from.
* **Paths** (`Reached.walked`, `Walked.reached`, `walked_iff_mem_visits`): the paths with a node at their tip are those
  that a walk visits.
-/

namespace Bracketing

open Bracketing.Tree Stack

variable {h : Heap} {root v w name : Value} {st rest : List Value} {n : NodeId} {p : Path}

/-- A path that has a value has it at the tip. -/
theorem Path.exists_stack_of_value (hv : p.value = .ok v) : ∃ rest, p.stack = v :: rest := by
  unfold Path.value at hv
  split at hv
  · rename_i w rest hs
    cases hv
    exact ⟨rest, hs⟩
  · cases hv

/-! ## Walks from a root -/

/-- The path is one that a walk from the root by the standard grammar comes by. -/
inductive Walked (h : Heap) (root : Value) : Path → Prop
  | new : Walked h root (Path.new root)
  | down {p : Path} {v : Value} {rest : List Value} (name : Value) : Walked h root p → p.stack = v :: rest →
      Passes .standard h v → Walked h root (p.down h name)

namespace Walked

theorem standard (hw : Walked h root p) : p.grammar = .standard := by
  induction hw with
  | new => rfl
  | down name _ _ _ ih => rw [Path.down_grammar, ih]

/-- The nodes and lists that a walk comes by are at or below its root. -/
theorem tip_below (hw : Walked h root p) : ∀ {v : Value} {rest : List Value}, p.stack = v :: rest →
    ((∃ n, v = .node n) ∨ ∃ l, v = .list l) → h.Below root v := by
  induction hw with
  | new =>
    intro v rest hs _
    cases hs
    exact .refl
  | @down p u rest' name _ hu hpass ih =>
    intro v rest hs hv
    rw [Path.down_stack hu] at hs
    obtain ⟨hr, -⟩ := List.cons.inj hs
    match u, hpass with
    | .node n, _ =>
      have hmem : h.Member (.node n) v := by
        rcases hv with ⟨c, rfl⟩ | ⟨l, rfl⟩
        · obtain ⟨k, -, hk⟩ := resolve_eq_node hr
          exact Heap.member_of_get_object hk (.inl ⟨c, rfl⟩)
        · obtain ⟨k, -, hk⟩ := resolve_node_eq_list hr
          exact Heap.member_of_get_object hk (.inr ⟨l, rfl⟩)
      exact (ih hu (.inl ⟨n, rfl⟩)).tail hmem
    | .list l, _ =>
      have hne : v ≠ .null := by rcases hv with ⟨c, rfl⟩ | ⟨l, rfl⟩ <;> simp
      obtain ⟨i, -, hi⟩ := resolve_list_eq hr hne
      exact (ih hu (.inr ⟨l, rfl⟩)).tail (Heap.member_of_mem (List.mem_of_getElem? hi))

end Walked

/-! ## The stacks of an acyclic tree -/

theorem Reached.fresh {g : Grammar} (hr : Reached g h [v] (w :: rest)) : Fresh h w rest := by
  generalize hx : w :: rest = x at hr
  induction hr generalizing w rest with
  | start _ =>
    cases hx
    intro u hu
    simp [Stack.values] at hu
  | @child st x hst hm he ih =>
    subst hx
    cases st with
    | nil => cases hm
    | cons u st =>
      obtain ⟨name, hx, hmem⟩ := resolve_of_mem_children hm
      obtain ⟨rfl, rfl⟩ := List.cons.inj hx
      exact (ih rfl).push hmem name

theorem passes_of_enters_standard (he : enters .standard h (v :: rest) = true) : Passes .standard h v := by
  obtain ⟨earlier, hv⟩ := values_cons v rest
  unfold enters at he
  rw [hv] at he
  cases v with
  | node n => exact (Bool.and_eq_true _ _ ▸ he).1
  | list l => trivial
  | _ => simp [Grammar.standard] at he

theorem Reached.tip_below (hr : Reached .standard h [root] (v :: rest)) : h.Below root v := by
  obtain ⟨earlier, hv⟩ := values_cons v rest
  exact hr.below_root rfl v (hv ▸ List.mem_cons_self)

/-- In an acyclic tree a walk comes to every child that it may go on from. -/
theorem Reached.child_of_passes (ha : h.Acyclic root) (hr : Reached .standard h [root] (v :: rest))
    (hx : w :: name :: v :: rest ∈ children h (v :: rest)) (hw : Passes .standard h w) :
    Reached .standard h [root] (w :: name :: v :: rest) := by
  obtain ⟨name', he, hm⟩ := resolve_of_mem_children hx
  obtain ⟨rfl, -⟩ := List.cons.inj he
  have hf := hr.fresh.push hm name
  have hacyclic := ha.of_below (hr.tip_below.tail hm)
  refine .child hr hx ?_
  generalize Path.resolve h v name' = w at *
  cases w with
  | node n => exact hf.enters_node hacyclic (by simpa [Passes, Grammar.standard] using hw)
  | list l => exact hf.enters_list hacyclic
  | _ => cases hw

/-! ## Children by name -/

/-- What a name gives is the value of an entry with that name, if it is made for nodes. -/
theorem exists_entry {k : String} (hk : h.get n k = v) (hv : Value.branches v = true) :
    ∃ e ∈ (h.node n).fields.entries, e.1 = k ∧ e.2 = v := by
  subst hk
  unfold Heap.get at hv ⊢
  split
  · simp_all [Value.branches]
  split
  · cases hx : (h.node n).location <;> simp_all [Value.branches]
  split
  · cases hx : (h.node n).extra <;> simp_all [Value.branches]
  simp only [Record.get, Record.get?] at hv ⊢
  cases hl : (h.node n).fields.entries.lookup k with
  | none => simp_all [Value.branches]
  | some w =>
    obtain ⟨l₁, l₂, he, -⟩ := List.lookup_eq_some_iff.1 hl
    exact ⟨(k, w), by simp [he], rfl, rfl⟩

/-- A member that a walk may go on from is at one of the children. -/
theorem mem_children_of_passes (hv : Passes .standard h v) (hw : Passes .standard h (Path.resolve h v name)) :
    Path.resolve h v name :: name :: v :: rest ∈ children h (v :: rest) := by
  have hbranches : Value.branches (Path.resolve h v name) = true := by
    generalize Path.resolve h v name = w at hw
    cases w with
    | node | list => rfl
    | _ => exact False.elim hw
  cases v with
  | node n =>
    obtain ⟨k, rfl⟩ : ∃ k, name = .str k := by
      cases name with
      | str k => exact ⟨k, rfl⟩
      | _ => cases hbranches
    obtain ⟨e, he, hek, -⟩ := exists_entry rfl hbranches
    exact List.mem_map.2 ⟨k, List.mem_filter.2 ⟨List.mem_map.2 ⟨e, he, hek⟩, hbranches⟩, rfl⟩
  | list l =>
    have hne : Path.resolve h (.list l) name ≠ .null := by
      intro hx
      rw [hx] at hbranches
      cases hbranches
    obtain ⟨i, rfl, hi⟩ := resolve_list_eq rfl hne
    have helement : elementAt h l i = Path.resolve h (.list l) (.index i) := by rw [elementAt, hi, Option.getD_some]
    obtain ⟨hlt, -⟩ := List.getElem?_eq_some_iff.1 hi
    refine List.mem_map.2 ⟨i, List.mem_filter.2 ⟨List.mem_range.2 hlt, ?_⟩, ?_⟩
    · simpa [helement] using hne
    · rw [atIndex, helement]
  | _ => exact False.elim hv

/-! ## Paths and visits -/

/-- A walk comes by the path at every stack that it reaches. -/
theorem Reached.walked (hr : Reached .standard h [root] st) : Walked h root ((Path.new root).withStack st) := by
  induction hr with
  | start => exact .new
  | @child st x hst hx _ ih =>
    obtain ⟨v, rest, rfl⟩ := List.exists_cons_of_ne_nil (hst.trail (.root root)).ne_nil
    obtain ⟨name, rfl, hm⟩ := resolve_of_mem_children hx
    exact .down name ih rfl (passes_of_enters hst.enters_self hm)

namespace Walked

/-- A path that a walk comes by differs from the one at its root in the stack only. -/
theorem eq_withStack (hw : Walked h root p) : p = (Path.new root).withStack p.stack := by
  induction hw with
  | new => rfl
  | @down p v rest name _ hs _ ih =>
    rw [Path.down_stack hs, ih, Path.down]
    simp [Path.withStack, hs, Path.push]

/-- In an acyclic tree a walk reaches the stack of every path that it may go on from. -/
theorem reached (ha : h.Acyclic root) (hw : Walked h root p) : ∀ {v : Value} {rest : List Value},
    p.stack = v :: rest → Passes .standard h v → Reached .standard h [root] (v :: rest) := by
  induction hw with
  | new =>
    intro v rest hs hv
    obtain ⟨rfl, rfl⟩ := List.cons.inj hs
    refine .start ?_
    cases root with
    | node n =>
      have hn : Grammar.standard.isNode h (.node n) = true := hv
      simp [enters, Stack.values, hn]
    | list l => rfl
    | _ => exact False.elim hv
  | @down p u rest' name _ hu hpass ih =>
    intro v rest hs hv
    rw [Path.down_stack hu] at hs
    obtain ⟨rfl, rfl⟩ := List.cons.inj hs
    exact (ih hu hpass).child_of_passes ha (mem_children_of_passes hpass hv) hv

end Walked

/-- **A walk visits what it comes by.** In an acyclic tree the paths that a walk comes by with a node at their tip are
the paths at the stacks that it visits. -/
theorem walked_iff_mem_visits (ha : h.Acyclic root) :
    (Walked h root p ∧ ∃ n, p.value = .ok (.node n) ∧ Grammar.standard.isNode h (.node n) = true) ↔
      ∃ st ∈ (Path.new root).visits h, p = (Path.new root).withStack st := by
  constructor
  · rintro ⟨hw, n, hn, hnode⟩
    obtain ⟨rest, hs⟩ := Path.exists_stack_of_value hn
    refine ⟨p.stack, Path.mem_visits_iff.2 ⟨?_, ?_⟩, hw.eq_withStack⟩
    · rw [hs]
      exact hw.reached ha hs hnode
    · rw [hs]
      rfl
  · rintro ⟨st, hst, rfl⟩
    obtain ⟨hr, hends⟩ := Path.mem_visits_iff.1 hst
    refine ⟨hr.walked, ?_⟩
    obtain ⟨v, rest, rfl⟩ := List.exists_cons_of_ne_nil (hr.trail (.root root)).ne_nil
    have hpass := passes_of_enters_standard hr.enters_self
    cases v with
    | node n => exact ⟨n, rfl, hpass⟩
    | list l => cases hends
    | _ => exact False.elim hpass

end Bracketing
