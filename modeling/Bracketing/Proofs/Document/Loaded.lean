import Bracketing.Document.Load
import Bracketing.Proofs.Tree.Entries
import Bracketing.Proofs.Tree.Plain

/-!
# Loaded trees are plain

Reading a document only ever adds objects to the heap (`Grows`), and it adds an object after the objects that it holds. A
value read so far is `Loaded`: it is well formed itself, and so is everything it holds, down to values that hold nothing.
Adding objects keeps a loaded value loaded (`Loaded.grow`), and a loaded value is plain (`Loaded.plain`), for going down
from it comes to an end.

* **One datum** (`loaded_value`, with its items and fields): its value is loaded.
* **A document** (`plain_of_load`): the tree that it gives is plain, with tokens attached or not.
-/

namespace Bracketing.Tree

/-! ## Heaps that grow -/

namespace Heap

variable {h h' h'' : Heap}

/-- The second heap has the nodes and lists of the first, and perhaps more. -/
structure Grows (h h' : Heap) : Prop where
  nodes : h.nodes.toList <+: h'.nodes.toList
  lists : h.lists.toList <+: h'.lists.toList

namespace Grows

theorem refl (h : Heap) : Grows h h := ⟨List.prefix_rfl, List.prefix_rfl⟩

theorem trans (h₁ : Grows h h') (h₂ : Grows h' h'') : Grows h h'' :=
  ⟨h₁.nodes.trans h₂.nodes, h₁.lists.trans h₂.lists⟩

/-- Maps and locations are of no account. -/
theorem of_eq (hn : h'.nodes = h.nodes) (hl : h'.lists = h.lists) : Grows h h' :=
  ⟨hn ▸ List.prefix_rfl, hl ▸ List.prefix_rfl⟩

theorem addNode (h : Heap) (n : Node) : Grows h (h.addNode n).2 :=
  ⟨by simp [Heap.addNode], List.prefix_rfl⟩

theorem addList (h : Heap) (vs : List Value) : Grows h (h.addList vs).2 :=
  ⟨List.prefix_rfl, by simp [Heap.addList]⟩

theorem node_eq {n : NodeId} (hg : Grows h h') (hn : n.index < h.nodes.size) : h'.node n = h.node n := by
  have he := hg.nodes.getElem (i := n.index) hn
  have hn' : n.index < h'.nodes.size := Nat.lt_of_lt_of_le hn hg.nodes.length_le
  simpa [node, Array.getD, hn, hn'] using he.symm

theorem list_eq {l : ListId} (hg : Grows h h') (hl : l.index < h.lists.size) : h'.list l = h.list l := by
  have he := hg.lists.getElem (i := l.index) hl
  have hl' : l.index < h'.lists.size := Nat.lt_of_lt_of_le hl hg.lists.length_le
  simpa [list, Array.getD, hl, hl'] using he.symm

end Grows

/-! ## Loaded values -/

/-- The value is what a tree may hold, apart from what it holds itself. -/
def Regular (h : Heap) : Value → Prop
  | .node n => (h.node n).tag ≠ "" ∧ ∀ k ∈ (h.node n).fields.keys, k ≠ "type" ∧ k ≠ "loc" ∧ k ≠ "extra"
  | .list l => l.index < h.lists.size
  | _ => True

/-- The value and all that it holds is regular, down to values that hold nothing. -/
inductive Loaded (h : Heap) : Value → Prop
  | intro {v : Value} (hv : h.Regular v) (hm : ∀ w, h.Member v w → Loaded h w) : Loaded h v

theorem index_lt_of_tag {n : NodeId} (hn : (h.node n).tag ≠ "") : n.index < h.nodes.size := by
  by_contra hx
  exact hn (by simp [node, Array.getD, hx])

/-- What is regular stays as it is while the heap grows. -/
theorem Regular.grow {v : Value} (hg : Grows h h') (hv : h.Regular v) :
    h'.Regular v ∧ h'.members v = h.members v := by
  cases v with
  | node n =>
    have he := hg.node_eq (index_lt_of_tag hv.1)
    simp only [Regular, members, he]
    exact ⟨hv, trivial⟩
  | list l =>
    have he := hg.list_eq hv
    simp only [Regular, members, he]
    exact ⟨Nat.lt_of_lt_of_le hv hg.lists.length_le, trivial⟩
  | _ => exact ⟨trivial, rfl⟩

namespace Loaded

theorem grow {v : Value} (hg : Grows h h') (hv : h.Loaded v) : h'.Loaded v := by
  induction hv with
  | intro hv _ ih =>
    obtain ⟨hv', hm⟩ := hv.grow hg
    exact .intro hv' fun w hw => ih w (by rwa [Member, hm] at hw)

theorem of_below {v w : Value} (hv : h.Loaded v) (hw : h.Below v w) : h.Loaded w := by
  induction hw with
  | refl => exact hv
  | tail _ hw ih =>
    cases ih with
    | intro _ hm => exact hm _ hw

/-- Nothing that is loaded is below itself. -/
theorem not_below {v : Value} (hv : h.Loaded v) : ¬ Relation.TransGen h.Member v v := by
  induction hv with
  | @intro v _ _ ih =>
    intro hc
    obtain ⟨w, hw, hc'⟩ := Relation.TransGen.head'_iff.1 hc
    exact ih w hw (Relation.TransGen.tail'_iff.2 ⟨v, hc', hw⟩)

theorem regular {v : Value} (hv : h.Loaded v) : h.Regular v := by
  cases hv with
  | intro hv _ => exact hv

/-- A loaded value is plain. -/
theorem plain {v : Value} (hv : h.Loaded v) : h.Plain v where
  acyclic _ hw := (hv.of_below hw).not_below
  tagged _ hn := (hv.of_below hn).regular.1
  fields _ hn := (hv.of_below hn).regular.2

end Loaded

end Heap

end Bracketing.Tree

/-! ## Documents -/

namespace Bracketing.Document

open Bracketing.Source Bracketing.Tree Bracketing.Tree.Heap

namespace Load

mutual

/-- Plain data only add objects. -/
theorem grows_plain (h : Heap) : ∀ d : Datum, Grows h (plain h d).2
  | .list items => (grows_plainItems h items).trans (Grows.addList _ _)
  | .mapping entries => (grows_plainEntries h entries).trans (.of_eq rfl rfl)
  | .null | .bool _ | .unsigned _ | .signed _ | .float _ | .str _ => .refl h

theorem grows_plainItems (h : Heap) : ∀ items : List Datum, Grows h (plainItems h items).2
  | [] => .refl h
  | d :: rest => (grows_plain h d).trans (grows_plainItems _ rest)

theorem grows_plainEntries (h : Heap) : ∀ entries : List (String × Datum), Grows h (plainEntries h entries).2
  | [] => .refl h
  | (_, d) :: rest => (grows_plain h d).trans (grows_plainEntries _ rest)

end

theorem grows_remarks (place : String) (entries : List (String × Datum)) (p : Progress) :
    Grows p.heap (remarks place entries p).2.heap := by
  unfold remarks
  split
  · exact .refl _
  · exact .refl _
  · rename_i d _ _
    have hg := grows_plain p.heap d
    split <;> rename_i hp <;> rw [hp] at hg <;> exact hg

theorem grows_location (rs : Readings) (place : String) (entries : List (String × Datum)) (p : Progress) :
    Grows p.heap (location rs place entries p).2.heap := by
  unfold location
  split
  · exact .refl _
  · exact .refl _
  · simp only
    split
    · exact .refl _
    · exact .of_eq rfl rfl

theorem tag?_ne {entries : List (String × Datum)} {tag : String} (ht : tag? entries = some tag) : tag ≠ "" := by
  unfold tag? at ht
  split at ht
  · split at ht
    · cases ht
    · cases ht
      assumption
  · cases ht

/-- A new node is loaded if its fields have names of their own and what they hold is loaded. -/
theorem loaded_addNode {h : Heap} {n : Node} (ht : n.tag ≠ "")
    (hf : ∀ e ∈ n.fields.entries, (e.1 ≠ "type" ∧ e.1 ≠ "loc" ∧ e.1 ≠ "extra") ∧ h.Loaded e.2) :
    (h.addNode n).2.Loaded (.node (h.addNode n).1) := by
  have he : (h.addNode n).2.node (h.addNode n).1 = n := by simp [addNode, node, Array.getD]
  refine .intro ⟨by rwa [he], fun k hk => ?_⟩ fun w hw => ?_
  · rw [he] at hk
    obtain ⟨e, hm, rfl⟩ := List.mem_map.1 hk
    exact (hf e hm).1
  · simp only [Member, members, he] at hw
    obtain ⟨e, hm, rfl⟩ := List.mem_map.1 hw
    exact (hf e hm).2.grow (.addNode h n)

theorem loaded_addList {h : Heap} {vs : List Value} (hv : ∀ v ∈ vs, h.Loaded v) :
    (h.addList vs).2.Loaded (.list (h.addList vs).1) := by
  have he : (h.addList vs).2.list (h.addList vs).1 = vs := by simp [addList, list, Array.getD]
  refine .intro (by simp [Regular, addList]) fun w hw => ?_
  simp only [Member, members, he] at hw
  exact (hv w hw).grow (.addList h vs)

theorem loaded_of_flat {h : Heap} {v : Value} (hn : ∀ n, v ≠ .node n) (hl : ∀ l, v ≠ .list l) : h.Loaded v := by
  cases v with
  | node n => exact absurd rfl (hn n)
  | list l => exact absurd rfl (hl l)
  | _ => exact .intro trivial fun w hw => by simp [Member, members] at hw

theorem loaded_scalar (h : Heap) (d : Datum) : h.Loaded (scalar d) := by
  unfold scalar
  split
  · exact loaded_of_flat (by simp) (by simp)
  · exact loaded_of_flat (by simp) (by simp)
  · split <;> exact loaded_of_flat (by simp) (by simp)

/-- No name that stands for something else becomes a field. -/
theorem field_of_not_skipped {k : String} (hk : ¬ skippedKeys.contains k = true) :
    k ≠ "type" ∧ k ≠ "loc" ∧ k ≠ "extra" := by
  refine ⟨?_, ?_, ?_⟩ <;> rintro rfl <;> exact hk (by decide)

mutual

/-- The value of a datum is loaded, among objects that have only grown. -/
theorem loaded_value (rs : Readings) (place : String) (p : Progress) : ∀ d : Datum,
    Grows p.heap (value rs place p d).2.heap ∧ (value rs place p d).2.heap.Loaded (value rs place p d).1
  | .list items => by
    obtain ⟨hg, hv⟩ := loaded_valueItems rs place 0 p items
    exact ⟨hg.trans (.addList _ _), loaded_addList hv⟩
  | .mapping entries => by
    unfold value
    split
    · rename_i tag ht
      obtain ⟨hg, hf⟩ := loaded_valueFields rs (place ++ "(" ++ tag ++ ")") p entries
      -- the remarks and the location come between the fields and the node
      have hg' := (grows_remarks (place ++ "(" ++ tag ++ ")") entries _).trans
        (grows_location rs (place ++ "(" ++ tag ++ ")") entries
          (remarks (place ++ "(" ++ tag ++ ")") entries (valueFields rs (place ++ "(" ++ tag ++ ")") p entries).2).2)
      refine ⟨(hg.trans hg').trans (.addNode _ _), loaded_addNode (tag?_ne ht) fun e he => ?_⟩
      obtain ⟨hk, hl⟩ := hf e (Record.mem_ofEntries he)
      exact ⟨hk, hl.grow hg'⟩
    · exact ⟨(grows_plainEntries p.heap entries).trans (.of_eq rfl rfl), loaded_of_flat (by simp) (by simp)⟩
  | .null | .bool _ | .unsigned _ | .signed _ | .float _ | .str _ => by
    simp only [value]
    exact ⟨.refl _, loaded_scalar _ _⟩

theorem loaded_valueItems (rs : Readings) (place : String) (i : Nat) (p : Progress) : ∀ items : List Datum,
    Grows p.heap (valueItems rs place i p items).2.heap ∧
      ∀ v ∈ (valueItems rs place i p items).1, (valueItems rs place i p items).2.heap.Loaded v
  | [] => ⟨.refl _, by simp [valueItems]⟩
  | d :: rest => by
    obtain ⟨hg, hv⟩ := loaded_value rs (place ++ "[" ++ toString i ++ "]") p d
    obtain ⟨hg', hvs⟩ := loaded_valueItems rs place (i + 1) (value rs (place ++ "[" ++ toString i ++ "]") p d).2 rest
    exact ⟨hg.trans hg', List.forall_mem_cons.2 ⟨hv.grow hg', hvs⟩⟩

theorem loaded_valueFields (rs : Readings) (place : String) (p : Progress) : ∀ entries : List (String × Datum),
    Grows p.heap (valueFields rs place p entries).2.heap ∧
      ∀ e ∈ (valueFields rs place p entries).1,
        (e.1 ≠ "type" ∧ e.1 ≠ "loc" ∧ e.1 ≠ "extra") ∧ (valueFields rs place p entries).2.heap.Loaded e.2
  | [] => ⟨.refl _, by simp [valueFields]⟩
  | (k, d) :: rest => by
    unfold valueFields
    split
    · exact loaded_valueFields rs place p rest
    · rename_i hk
      obtain ⟨hg, hv⟩ := loaded_value rs (place ++ "." ++ k) p d
      obtain ⟨hg', hvs⟩ := loaded_valueFields rs place (value rs (place ++ "." ++ k) p d).2 rest
      exact ⟨hg.trans hg', List.forall_mem_cons.2 ⟨⟨field_of_not_skipped hk, hv.grow hg'⟩, hvs⟩⟩

end

theorem loaded_of_value {rs : Readings} {place : String} {p : Progress} {d : Datum} {v : Value}
    (hv : (value rs place p d).1 = v) : (value rs place p d).2.heap.Loaded v :=
  hv ▸ (loaded_value rs place p d).2

end Load

/-- Attaching tokens changes no node and no list. -/
theorem grows_attachTo (tokens : List (Option Token)) : ∀ (ns : List NodeId) (h : Heap),
    Grows h (attachTo tokens ns h).1
  | [], h => .refl h
  | n :: rest, h => by
    unfold attachTo
    split
    · exact grows_attachTo tokens rest h
    · simp only
      split
      · refine Grows.trans ?_ (grows_attachTo tokens rest _)
        exact .of_eq rfl rfl
      · exact .of_eq rfl rfl

theorem grows_attach (h : Heap) (v : Value) (tokens : List (Option Token)) : Grows h (h.attach v tokens).1 := by
  unfold attach
  split
  · exact grows_attachTo tokens _ h
  · exact .refl h

/-- The tree of a document is plain. -/
theorem plain_of_load {rs : Load.Readings} {h heap : Heap} {d : Datum} {n : NodeId} (hl : load rs h d = .ok (n, heap)) :
    heap.Plain (.node n) := by
  unfold load at hl
  split at hl
  · cases hl
  · simp only at hl
    split at hl
    · rename_i hm _
      have hv := Load.loaded_of_value hm
      split at hl
      · cases hl
        exact (hv.grow (grows_attach _ _ _)).plain
      · cases hl
        exact hv.plain
    · cases hl
    · cases hl

end Bracketing.Document
