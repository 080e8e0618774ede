import Bracketing.Proofs.Path.Course
import Bracketing.Report.Survey

/-!
# The order of a walk

While the objects stay as they are, a walk runs its visitor at the stacks that `Stack.preorder` lists, in that order.
A run that asks to skip children takes the stacks strictly above its own off the list, and a run that ends the walk
cuts the list there (`Traces`).

- Lists put together: `Traces.append` for one after another, `InTurn.traces` for all children, and one lemma for each
  thing that a visit of a node can come to (`AtNode.traces`);
- `Course.traces`: the course of a walk that is deep enough traces its list;
- `walk_enumerates`: every walk ends, and its runs are the listed stacks, pruned and cut.
-/

namespace Bracketing

open Bracketing.Tree Stack

variable {σ ε α β : Type}

/-! ## Pruned lists -/

/-- The outcome asks to skip children. -/
def Outcome.skips : Outcome ε α → Bool
  | .failed e => e.skips
  | _ => false

/-- The run asks to skip what the stack is part of: it lies strictly above the stack of the run. -/
def Run.prunes (r : Run ε β) (x : List Value) : Bool :=
  r.outcome.skips && decide (r.stack <:+ x) && decide (r.stack ≠ x)

/-- The list without what the runs ask to skip. -/
def pruned (runs : List (Run ε β)) (listing : List (List Value)) : List (List Value) :=
  listing.filter fun x => !runs.any (·.prunes x)

/-- The runs trace the list: they are made at its stacks in order, except for those that are skipped, up to the end or
up to a run that ends the traversal with its outcome. -/
inductive Traces (listing : List (List Value)) : List (Run ε β) → Outcome ε Unit → Prop
  | whole {runs : List (Run ε β)} (hr : ∀ r ∈ runs, r.outcome.passes true = true)
      (hs : runs.map Run.stack = pruned runs listing) : Traces listing runs (.done ())
  | cut {runs : List (Run ε β)} {r : Run ε β} (hr : ∀ x ∈ runs, x.outcome.passes true = true)
      (hn : r.outcome.passes true = false) (hs : (runs ++ [r]).map Run.stack <+: pruned runs listing) :
      Traces listing (runs ++ [r]) r.outcome.forget

section Pruned

variable {runs more : List (Run ε β)} {xs ys : List (List Value)}

theorem pruned_lists_append (runs : List (Run ε β)) (xs ys : List (List Value)) :
    pruned runs (xs ++ ys) = pruned runs xs ++ pruned runs ys :=
  List.filter_append _ _

/-- Runs that skip nothing of a list may be left out on the right, -/
theorem pruned_append_left (h : ∀ r ∈ more, ∀ x ∈ xs, r.prunes x = false) :
    pruned (runs ++ more) xs = pruned runs xs := by
  refine List.filter_congr fun x hx => ?_
  have hm : more.any (·.prunes x) = false := List.any_eq_false.2 fun r hr => by simp [h r hr x hx]
  rw [List.any_append, hm, Bool.or_false]

/-- and on the left. -/
theorem pruned_append_right (h : ∀ r ∈ runs, ∀ x ∈ xs, r.prunes x = false) :
    pruned (runs ++ more) xs = pruned more xs := by
  refine List.filter_congr fun x hx => ?_
  have hm : runs.any (·.prunes x) = false := List.any_eq_false.2 fun r hr => by simp [h r hr x hx]
  rw [List.any_append, hm, Bool.false_or]

theorem prunes_eq_false {r : Run ε β} {x : List Value} (hx : ¬ r.stack <:+ x) : r.prunes x = false := by
  simp [Run.prunes, hx]

end Pruned

namespace Traces

variable {listing xs ys : List (List Value)} {runs more : List (Run ε β)} {out : Outcome ε Unit}

/-- Runs are made at listed stacks only. -/
theorem stack_mem (h : Traces listing runs out) : ∀ r ∈ runs, r.stack ∈ listing := by
  intro r hr
  have hm : r.stack ∈ runs.map Run.stack := List.mem_map_of_mem hr
  cases h with
  | whole _ hs => exact List.mem_of_mem_filter (hs ▸ hm)
  | cut _ _ hs => exact List.mem_of_mem_filter (hs.subset hm)

/-- A traversal that is done has come to the end of the list. -/
theorem whole_of_done (h : Traces listing runs (.done ())) :
    (∀ r ∈ runs, r.outcome.passes true = true) ∧ runs.map Run.stack = pruned runs listing := by
  generalize ho : Outcome.done () = out at h
  cases h with
  | whole hr hs => exact ⟨hr, hs⟩
  | @cut _ r _ hn _ => cases hr : r.outcome <;> simp_all [Outcome.forget, Outcome.passes]

/-- A traversal never fails with a request to skip children. -/
theorem skips_eq_false {e : Failure ε} (h : Traces listing runs (.failed e)) : e.skips = false := by
  generalize ho : Outcome.failed e = out at h
  cases h with
  | whole => cases ho
  | @cut _ r _ hn _ => cases hr : r.outcome <;> simp_all [Outcome.forget, Outcome.passes]

/-- Runs that are all done come to the end of the list and skip nothing. -/
theorem all_done (h : Traces listing runs out) (hd : ∀ r ∈ runs, ∃ b, r.outcome = .done b) :
    out = .done () ∧ runs.map Run.stack = listing := by
  cases h with
  | whole _ hs =>
    refine ⟨rfl, hs.trans (List.filter_eq_self.2 fun x _ => ?_)⟩
    simp only [Bool.not_eq_true', List.any_eq_false]
    intro r hr
    obtain ⟨b, hb⟩ := hd r hr
    simp [Run.prunes, Outcome.skips, hb]
  | @cut _ r _ hn _ =>
    obtain ⟨b, hb⟩ := hd r (by simp)
    simp [hb, Outcome.passes] at hn

theorem nil : Traces [] ([] : List (Run ε β)) (.done ()) := .whole (by simp) rfl

/-- One list after another, if the runs for neither skip anything of the other. -/
theorem append (h₁ : Traces xs runs (.done ())) (h₂ : Traces ys more out)
    (h₁₂ : ∀ r ∈ runs, ∀ y ∈ ys, r.prunes y = false) (h₂₁ : ∀ r ∈ more, ∀ x ∈ xs, r.prunes x = false) :
    Traces (xs ++ ys) (runs ++ more) out := by
  obtain ⟨hr₁, hs₁⟩ := h₁.whole_of_done
  cases h₂ with
  | whole hr₂ hs₂ =>
    refine .whole (fun r hr => (List.mem_append.1 hr).elim (hr₁ r) (hr₂ r)) ?_
    rw [List.map_append, hs₁, hs₂, pruned_lists_append, pruned_append_left h₂₁, pruned_append_right h₁₂]
  | @cut more r hr₂ hn hs₂ =>
    rw [← List.append_assoc]
    refine .cut (fun r hr => (List.mem_append.1 hr).elim (hr₁ r) (hr₂ r)) hn ?_
    have hmore : ∀ r ∈ more, ∀ x ∈ xs, r.prunes x = false := fun r hr => h₂₁ r (List.mem_append_left _ hr)
    rw [List.append_assoc, List.map_append, hs₁, pruned_lists_append, pruned_append_left hmore,
      pruned_append_right h₁₂]
    exact (List.prefix_append_right_inj _).2 hs₂

/-- What ends a traversal ends it before the rest of the list. -/
theorem extend (h : Traces xs runs out) (ho : out ≠ .done ()) (ys : List (List Value)) :
    Traces (xs ++ ys) runs out := by
  cases h with
  | whole => exact absurd rfl ho
  | cut hr hn hs =>
    refine .cut hr hn (hs.trans ?_)
    rw [pruned_lists_append]
    exact List.prefix_append _ _

/-! ## The visit of a node -/

variable {st : List Value}

/-- The visit is done: what is above comes next. -/
theorem visit_done (b : β) (h : Traces xs more out) (hx : ∀ x ∈ xs, ¬ x <:+ st) :
    Traces (st :: xs) (⟨st, .done b⟩ :: more) out := by
  have h₁ : Traces [st] [(⟨st, .done b⟩ : Run ε β)] (.done ()) :=
    .whole (by simp [Outcome.passes]) (by simp [pruned, Run.prunes, Outcome.skips])
  refine h₁.append h (by simp [Run.prunes, Outcome.skips]) fun r hr x hxs => ?_
  rw [List.mem_singleton.1 hxs]
  exact prunes_eq_false (hx _ (h.stack_mem r hr))

/-- The visit asks to skip children: nothing above is left. -/
theorem visit_skipped {e : Failure ε} (he : e.skips = true) (hx : ∀ x ∈ xs, st <:+ x ∧ st ≠ x) :
    Traces (st :: xs) [(⟨st, .failed e⟩ : Run ε β)] (.done ()) := by
  refine .whole (by simp [Outcome.passes, he]) ?_
  have hnil : pruned [(⟨st, .failed e⟩ : Run ε β)] xs = [] := by
    refine List.filter_eq_nil_iff.2 fun x h => ?_
    simp [Run.prunes, Outcome.skips, he, hx x h]
  have hst : pruned [(⟨st, .failed e⟩ : Run ε β)] [st] = [st] := by simp [pruned, Run.prunes]
  rw [List.map_singleton, show st :: xs = [st] ++ xs from rfl, pruned_lists_append, hnil, hst]
  rfl

/-- The visit ends the traversal. -/
theorem visit_ended {o : Outcome ε β} (hn : o.passes true = false) (xs : List (List Value)) :
    Traces (st :: xs) [(⟨st, o⟩ : Run ε β)] o.forget := by
  have h : Traces (st :: xs) ([] ++ [(⟨st, o⟩ : Run ε β)]) o.forget :=
    .cut (r := ⟨st, o⟩) (by simp) hn (by simp [pruned])
  exact h

end Traces

/-! ## All children -/

/-- Stacks that go on from two different ones of one length are apart. -/
theorem not_suffix_of_ne {a b x y : List Value} (hl : a.length = b.length) (hne : a ≠ b) (ha : a <:+ x)
    (hb : b <:+ y) : ¬ x <:+ y := fun hxy =>
  hne ((List.suffix_of_suffix_length_le (ha.trans hxy) hb hl.le).eq_of_length hl)

/-- What is listed for different children of a stack is apart. -/
theorem pairwise_children {g : Grammar} {h : Heap} (depth : Nat) (st : List Value) :
    (children h st).Pairwise fun a b => ∀ x ∈ preorder g h depth a, ∀ y ∈ preorder g h depth b,
      ¬ x <:+ y ∧ ¬ y <:+ x := by
  refine (nodup_children h st).imp_of_mem fun {a b} ha hb hne x hx y hy => ?_
  have hl : a.length = b.length := by
    obtain ⟨_, _, rfl⟩ := exists_of_mem_children ha
    obtain ⟨_, _, rfl⟩ := exists_of_mem_children hb
    rfl
  have hax := suffix_of_mem_preorder hx
  have hby := suffix_of_mem_preorder hy
  exact ⟨not_suffix_of_ne hl hne hax hby, not_suffix_of_ne hl.symm hne.symm hby hax⟩

/-- Parts that trace lists which are apart trace the lists one after another. -/
theorem InTurn.traces {law : α → Outcome ε Unit → List (Run ε β) → Prop} {F : α → List (List Value)} {as : List α}
    {out : Outcome ε Unit} {runs : List (Run ε β)} (h : InTurn law as out runs)
    (hlaw : ∀ a ∈ as, ∀ out runs, law a out runs → Traces (F a) runs out)
    (hp : as.Pairwise fun a b => ∀ x ∈ F a, ∀ y ∈ F b, ¬ x <:+ y ∧ ¬ y <:+ x) :
    Traces (as.flatMap F) runs out := by
  induction h with
  | nil => exact .nil
  | @cons a as runs more out ha _ ih =>
    obtain ⟨hap, hp⟩ := List.pairwise_cons.1 hp
    have hr := hlaw a List.mem_cons_self _ _ ha
    have hm := ih (fun b hb => hlaw b (List.mem_cons_of_mem a hb)) hp
    refine hr.append hm (fun r hr' y hy => ?_) fun r hr' x hx => ?_
    · obtain ⟨b, hb, hy⟩ := List.mem_flatMap.1 hy
      exact prunes_eq_false (hap b hb _ (hr.stack_mem r hr') y hy).1
    · obtain ⟨b, hb, hy⟩ := List.mem_flatMap.1 (hm.stack_mem r hr')
      exact prunes_eq_false (hap b hb x hx _ hy).2
  | @ended a as runs out ha ho => exact (hlaw a List.mem_cons_self _ _ ha).extend ho _

/-- A node that is entered traces its own stack and then the lists of its children. -/
theorem AtNode.traces {st : List Value} {below : Outcome ε Unit → List (Run ε β) → Prop} {xs : List (List Value)}
    {o : Outcome ε β} {out : Outcome ε Unit} {runs : List (Run ε β)} (h : AtNode st below o out runs)
    (hb : ∀ out runs, below out runs → Traces xs runs out) (hx : ∀ x ∈ xs, st <:+ x ∧ st ≠ x) :
    Traces (st :: xs) runs out := by
  cases h with
  | done h =>
    refine (hb _ _ h).visit_done _ fun x hxs hs => (hx x hxs).2 ?_
    exact (hx x hxs).1.eq_of_length (Nat.le_antisymm (hx x hxs).1.length_le hs.length_le)
  | skipped he => exact .visit_skipped he hx
  | ended ho => exact .visit_ended ho xs

/-- What is listed for the children of a stack goes on from it. -/
theorem suffix_of_mem_children {g : Grammar} {h : Heap} {depth : Nat} {st x : List Value}
    (hx : x ∈ (children h st).flatMap (preorder g h depth)) : st <:+ x ∧ st ≠ x := by
  obtain ⟨y, hy, hx⟩ := List.mem_flatMap.1 hx
  obtain ⟨value, name, rfl⟩ := exists_of_mem_children hy
  have hyx := suffix_of_mem_preorder hx
  refine ⟨(List.suffix_append [value, name] _).trans hyx, ?_⟩
  rintro rfl
  have hlen := hyx.length_le
  simp only [List.length_cons] at hlen
  omega

/-! ## The walk -/

/-- The course of a walk that is deep enough traces the list of its stack. -/
theorem Course.traces {answers : List Value → Outcome ε β → Prop} {g : Grammar} {h : Heap} {nodes lists : Nat}
    (hbound : Bounded nodes lists h) : ∀ {depth : Nat} {st : List Value} {out : Outcome ε Unit}
    {runs : List (Run ε β)}, Ample nodes lists depth st → Course answers g h depth st out runs →
      Traces (preorder g h depth st) runs out
  | 0, _, _, _, ha, _ => ha.not_zero.elim
  | _ + 1, [], _, _, _, h => by
    obtain ⟨rfl, rfl⟩ := (course_pass rfl).1 h
    exact .nil
  | depth + 1, tip :: rest, out, runs, ha, hr => by
    unfold preorder
    cases he : enters g h (tip :: rest) with
    | false =>
      obtain ⟨rfl, rfl⟩ := (course_pass he).1 hr
      exact .nil
    | true =>
      have hbelow : ∀ out runs, InTurn (Course answers g h depth) (children h (tip :: rest)) out runs →
          Traces ((children h (tip :: rest)).flatMap (preorder g h depth)) runs out := fun out runs h =>
        h.traces (fun x hx _ _ hr => Course.traces hbound (ha.child hbound he hx) hr) (pairwise_children depth _)
      rcases endsInNode_or_list he with hn | ⟨l, rfl⟩
      · obtain ⟨o, -, hr⟩ := (course_node he hn).1 hr
        rw [hn]
        exact hr.traces hbelow fun x => suffix_of_mem_children
      · exact hbelow _ _ ((course_list he).1 hr)

/-! ## Every walk -/

/-- The list holds the stacks reached from the start that end in a node, each once, a stack before those above it and
the children of a stack in order. -/
structure Enumerates (g : Grammar) (h : Heap) (start : List Value) (listing : List (List Value)) : Prop where
  mem_iff : ∀ x, x ∈ listing ↔ Reached g h start x ∧ endsInNode x = true
  nodup : listing.Nodup
  ordered : listing.Pairwise (Before h)

/-- Every walk from a path with a tip ends, and its runs trace the list of all stacks reached. -/
theorem exists_traces_walk {c : Cursor σ} {I : σ → Prop} (hc : c.Lawful I) {v : Visit σ ε β} {s : σ} (hI : I s)
    (hk : Keeps c (fun t => I t ∧ c.heap t = c.heap s) v) (hs : (c.path s).stack ≠ []) :
    ∃ listing runs out t, c.walk (do let _ ← v) s = (out, t) ∧
      (c.beside (List (Run ε β))).walk (do let _ ← c.recorded v) (s, []) = (out, (t, runs)) ∧
      Enumerates (c.path s).grammar (c.heap s) (c.path s).stack listing ∧ Traces listing runs out := by
  obtain ⟨runs, out, t, hw, hw', hcourse⟩ := exists_course hc hI hk hs (fun _ _ => True) fun _ _ _ _ => trivial
  have hbound : Bounded (c.heap s).nodes.size (c.heap s).lists.size (c.heap s) := ⟨Nat.le_refl _, Nat.le_refl _⟩
  have hample : Ample (c.heap s).nodes.size (c.heap s).lists.size
      ((c.heap s).extent + c.reserve + 1) (c.path s).stack := Ample.of_lt (by simp only [Heap.extent]; omega) _
  exact ⟨_, runs, out, t, hw, hw',
    ⟨fun x => mem_preorder_iff hbound hample, nodup_preorder _ _, pairwise_preorder _ _⟩,
    hcourse.traces hbound hample⟩

/-- Every walk whose visitor leaves the path and the objects as they are ends. From a path without a tip it stops at
once. Otherwise its runs trace the list of all stacks reached, the whole list if they are all done, and it never fails
with a request to skip children. -/
theorem walk_enumerates {c : Cursor σ} {I : σ → Prop} (hc : c.Lawful I) {v : Visit σ ε β} {s : σ} (hI : I s)
    (hk : Keeps c (fun t => I t ∧ c.heap t = c.heap s) v) :
    ((c.path s).stack = [] → c.walk (do let _ ← v) s = (.stopped (.broken .noRoot), s)) ∧
    ((c.path s).stack ≠ [] → ∃ listing runs out t,
      Enumerates (c.path s).grammar (c.heap s) (c.path s).stack listing ∧
      c.walk (do let _ ← v) s = (out, t) ∧
      (c.beside (List (Run ε β))).walk (do let _ ← c.recorded v) (s, []) = (out, (t, runs)) ∧
      Traces listing runs out ∧
      ((∀ r ∈ runs, ∃ b, r.outcome = .done b) → out = .done () ∧ runs.map Run.stack = listing) ∧
      ∀ e, out = .failed e → e.skips = false) := by
  refine ⟨fun hs => (walk_eq _ s).trans (walkWithin_empty hs), fun hs => ?_⟩
  obtain ⟨listing, runs, out, t, hw, hw', hl, ht⟩ := exists_traces_walk hc hI hk hs
  refine ⟨listing, runs, out, t, hl, hw, hw', ht, ht.all_done, fun e he => ?_⟩
  rw [he] at ht
  exact ht.skips_eq_false

/-- Two nodes that hold each other, one of them shared by a field and a list with a hole. -/
def sharedLoop : Heap where
  nodes := #[{ tag := "BlockStatement", fields := Record.ofEntries [("first", .node ⟨1⟩), ("body", .list ⟨0⟩)] },
    { tag := "Identifier", fields := Record.ofEntries [("owner", .node ⟨0⟩)] }]
  lists := #[[.null, .node ⟨1⟩, .node ⟨0⟩]]

/-- A walk over the shared loop that stands at its first node. -/
def loopTour : Tour Unit where
  heap := sharedLoop
  path := .new (.node ⟨0⟩)

/-- A visitor that asks to skip what is below the fields of the root. -/
def shallowVisit : Visit (Tour Unit) Empty Unit := fun t =>
  if t.path.length = 3 then (.failed (.wrapped "field" .skipChildren), t) else (.done (), t)

theorem keeps_shallowVisit (h : Heap) : Keeps Tour.cursor (fun t => True ∧ Tour.cursor.heap t = h) shallowVisit := by
  intro t ht
  unfold shallowVisit
  split <;> exact ⟨rfl, ht⟩

theorem walk_enumerates_sharedLoop : Tour.cursor.path loopTour = .new (.node ⟨0⟩) ∧
    ∃ listing runs out t,
      Enumerates .standard sharedLoop [.node ⟨0⟩] listing ∧
      Tour.cursor.walk (do let _ ← shallowVisit) loopTour = (out, t) ∧
      (Tour.cursor.beside (List (Run Empty Unit))).walk (do let _ ← Tour.cursor.recorded shallowVisit)
        (loopTour, []) = (out, (t, runs)) ∧
      Traces listing runs out ∧
      ((∀ r ∈ runs, ∃ b, r.outcome = .done b) → out = .done () ∧ runs.map Run.stack = listing) ∧
      ∀ e, out = .failed e → e.skips = false :=
  ⟨rfl, (walk_enumerates (s := loopTour) Tour.cursor_lawful trivial (keeps_shallowVisit sharedLoop)).2 (by decide)⟩

end Bracketing
