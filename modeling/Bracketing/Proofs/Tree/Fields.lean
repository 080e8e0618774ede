import Bracketing.Proofs.Tree.Entries
import Bracketing.Tree.Heap
import Mathlib.Logic.Function.Basic

/-!
# Fields in the order of first setting

The fields of a node are set one at a time, in any order, again and again, and between settings of other nodes. All that
a node keeps of this are its own settings: each name at its first place, with its last value.

* **One setting** (`node_set`): it changes one record of one node. Names that have been set keep their places
  (`keys_prefix_set`), and no other name gives another value than before, be it of this node or of another
  (`get_set_of_ne`).
* **Two things in step** (`Record.ledger_set`): the names and the values of a record change as a list and a table beside
  it would, where the list grows just if the table does not have the name.
* **Many settings** (`node_setAll`): a node gets the record that is made of its own settings.
* **Reading** (`fields_in_order`): so the names of a node that was made without fields are those that have been set, in
  the order of first setting, and a name gives what was set last.
-/

namespace Bracketing.Tree

/-! ## Names and values of a record -/

/-- A table of values and, beside it, a list of names; only setting keeps the two in step. -/
structure Ledger where
  names : List String := []
  table : String → Option Value := fun _ => none

/-- Puts the name at the end of the list unless the table has it, and the value into the table. -/
def Ledger.set (l : Ledger) (k : String) (v : Value) : Ledger where
  names := if (l.table k).isSome then l.names else l.names ++ [k]
  table := Function.update l.table k (some v)

namespace Record

variable (r : Record)

/-- The names are those that have been set. -/
theorem mem_keys_iff (k : String) : k ∈ r.keys ↔ r.has k = true := by
  rw [has, get?, List.lookup_isSome_iff, keys, List.mem_map]
  simp

theorem keys_prefix_set (k : String) (v : Value) : r.keys <+: (r.set k v).keys := by
  rw [keys_set]
  split
  · exact List.prefix_rfl
  · exact List.prefix_append _ _

theorem get_set_of_ne {k k' : String} (hk : k' ≠ k) (v : Value) : (r.set k v).get k' = r.get k' := by
  rw [get, get, get?_set_other r v hk]

/-- The names of a record and what it gives under them. -/
def ledger : Ledger := ⟨r.keys, r.get?⟩

/-- Setting a name does to a record what it does to its names and values kept apart. -/
theorem ledger_set (k : String) (v : Value) : (r.set k v).ledger = r.ledger.set k v := by
  have hnames : (r.set k v).keys = if (r.get? k).isSome then r.keys else r.keys ++ [k] := by
    rw [keys_set]
    exact if_congr (r.mem_keys_iff k) rfl rfl
  have htable : (r.set k v).get? = Function.update r.get? k (some v) := by
    funext k'
    by_cases hk : k' = k
    · rw [hk, get?_set_self, Function.update_self]
    · rw [get?_set_other r v hk, Function.update_of_ne hk]
  rw [ledger, hnames, htable]
  rfl

theorem ledger_ofEntries (es : List (String × Value)) :
    (ofEntries es).ledger = es.foldl (fun l e => l.set e.1 e.2) {} := by
  have hfold : ∀ r : Record, (es.foldl (fun r e => r.set e.1 e.2) r).ledger =
      es.foldl (fun l e => l.set e.1 e.2) r.ledger := by
    induction es with
    | nil => exact fun _ => rfl
    | cons e es ih =>
      intro r
      rw [List.foldl_cons, List.foldl_cons, ih, ledger_set]
  exact hfold {}

theorem keys_ofEntries (es : List (String × Value)) : (ofEntries es).keys = (es.map Prod.fst).eraseDups := by
  rw [keys, entries_ofEntries, map_fst_putEntries]
  simp

theorem get_ofEntries (es : List (String × Value)) (k : String) :
    (ofEntries es).get k = (es.reverse.lookup k).getD .null := by
  rw [get, get?, entries_ofEntries, lookup_putEntries]
  simp

end Record

/-! ## One setting -/

namespace Heap

variable {h : Heap} {n m : NodeId} {k k' : String} {v : Value}

theorem node_modifyNode (h : Heap) (n m : NodeId) (f : Node → Node) : (h.modifyNode n f).node m =
    if m = n ∧ n.index < h.nodes.size then f (h.node m) else h.node m := by
  by_cases hm : m.index < h.nodes.size
  · by_cases hi : n.index = m.index
    · obtain rfl : m = n := by cases m; cases n; simp_all
      simp [modifyNode, node, hm, Array.getElem_modify]
    · have hne : m ≠ n := by rintro rfl; exact hi rfl
      simp [modifyNode, node, hm, hi, hne, Array.getElem_modify]
  · have hout : ¬ (m = n ∧ n.index < h.nodes.size) := by rintro ⟨rfl, hx⟩; exact hm hx
    simp [modifyNode, node, hm, hout]

/-- A setting changes the record of its node, and nothing else of any node. -/
theorem node_set (h : Heap) (n m : NodeId) (k : String) (v : Value) : (h.set n k v).node m =
    if m = n ∧ n.index < h.nodes.size then { h.node m with fields := (h.node m).fields.set k v } else h.node m :=
  node_modifyNode h n m _

theorem size_set (h : Heap) (n : NodeId) (k : String) (v : Value) : (h.set n k v).nodes.size = h.nodes.size := by
  simp [set, modifyNode]

/-- The names that a node has stay where they are. -/
theorem keys_prefix_set (h : Heap) (n m : NodeId) (k : String) (v : Value) :
    (h.node n).fields.keys <+: ((h.set m k v).node n).fields.keys := by
  rw [node_set]
  split
  · exact (h.node n).fields.keys_prefix_set k v
  · exact List.prefix_rfl

/-- No name but the one that is set gives another value. -/
theorem get_set_of_ne (hne : (n, k') ≠ (m, k)) (v : Value) : (h.set m k v).get n k' = h.get n k' := by
  unfold get
  rw [node_set]
  by_cases hn : n = m ∧ m.index < h.nodes.size
  · have hk : k' ≠ k := fun hk => hne (by rw [hn.1, hk])
    rw [if_pos hn]
    dsimp only
    rw [Record.get_set_of_ne _ hk]
  · rw [if_neg hn]

end Heap

/-! ## Many settings -/

/-- One setting of a field: the node, the name and the value. -/
structure Setting where
  node : NodeId
  name : String
  value : Value

/-- The settings of one node, in the order in which they are made. -/
def Setting.entriesOf (n : NodeId) (ss : List Setting) : List (String × Value) :=
  (ss.filter (·.node = n)).map fun s => (s.name, s.value)

theorem Setting.entriesOf_cons_self (s : Setting) (ss : List Setting) :
    entriesOf s.node (s :: ss) = (s.name, s.value) :: entriesOf s.node ss := by
  simp [entriesOf]

theorem Setting.entriesOf_cons_of_ne {s : Setting} {n : NodeId} (hs : s.node ≠ n) (ss : List Setting) :
    entriesOf n (s :: ss) = entriesOf n ss := by
  simp [entriesOf, hs]

namespace Heap

variable {h : Heap} {n : NodeId}

/-- The heap after settings, one after another, of any nodes. -/
def setAll (h : Heap) (ss : List Setting) : Heap := ss.foldl (fun h s => h.set s.node s.name s.value) h

/-- What settings make of a node: its own settings are made one after another, and the others have no effect. -/
theorem node_setAll (hn : n.index < h.nodes.size) (ss : List Setting) : (h.setAll ss).node n =
    { h.node n with fields := (Setting.entriesOf n ss).foldl (fun r e => r.set e.1 e.2) (h.node n).fields } := by
  induction ss generalizing h with
  | nil => rfl
  | cons s ss ih =>
    have hrun : (h.setAll (s :: ss)).node n = ((h.set s.node s.name s.value).setAll ss).node n := rfl
    rw [hrun, ih (by rwa [size_set]), node_set]
    by_cases hs : s.node = n
    · subst hs
      rw [if_pos ⟨rfl, hn⟩, Setting.entriesOf_cons_self]
      rfl
    · rw [if_neg (fun hx => hs hx.1.symm), Setting.entriesOf_cons_of_ne hs]

/-- A new node without fields gets the record that is made of its settings. -/
theorem node_setAll_new {start : Heap} {x : Node} (hx : x.fields = {}) (hnew : h.addNode x = (n, start))
    (ss : List Setting) : (start.setAll ss).node n = { x with fields := .ofEntries (Setting.entriesOf n ss) } := by
  obtain ⟨rfl, rfl⟩ := Prod.mk.inj hnew
  have hnode : Heap.node { h with nodes := h.nodes.push x } ⟨h.nodes.size⟩ = x := by simp [node]
  rw [node_setAll (by simp), hnode, hx]
  rfl

theorem get_of_node {x : Node} (hx : h.node n = x) {k : String} (ht : k ≠ "type") (hl : k ≠ "loc") (he : k ≠ "extra") :
    h.get n k = x.fields.get k := by
  simp only [get, ht, hl, he, if_false, hx]

/-- The fields of a node that was made without any, after settings of this node and of others: the names are distinct,
and they are those that the node has, in the order in which they were first set; a name that stands for a field gives
what was set last, and nothing if it was never set. All the while, names and values are what a list and a table beside
it would be. One more setting leaves the names before where they are, and what any other name gives. -/
theorem fields_in_order {start h' : Heap} {x : Node} (hx : x.fields = {}) (hnew : h.addNode x = (n, start))
    (ss : List Setting) (hset : start.setAll ss = h') :
    (h'.node n).fields.keys.Nodup ∧ (∀ k, k ∈ (h'.node n).fields.keys ↔ (h'.node n).fields.has k = true) ∧
    (h'.node n).fields.keys = ((Setting.entriesOf n ss).map Prod.fst).eraseDups ∧
    (∀ k, k ≠ "type" → k ≠ "loc" → k ≠ "extra" →
      h'.get n k = ((Setting.entriesOf n ss).reverse.lookup k).getD .null) ∧
    (h'.node n).fields.ledger = (Setting.entriesOf n ss).foldl (fun l e => l.set e.1 e.2) {} ∧
    ∀ m k v, (h'.node n).fields.keys <+: ((h'.set m k v).node n).fields.keys ∧
      ∀ k', (n, k') ≠ (m, k) → (h'.set m k v).get n k' = h'.get n k' := by
  subst hset
  have hnode := node_setAll_new hx hnew ss
  refine ⟨Record.distinct _, Record.mem_keys_iff _, ?_, ?_, ?_, ?_⟩
  · rw [hnode]
    exact Record.keys_ofEntries _
  · intro k ht hl he
    rw [get_of_node hnode ht hl he]
    exact Record.get_ofEntries _ k
  · rw [hnode]
    exact Record.ledger_ofEntries _
  · intro m k v
    exact ⟨keys_prefix_set _ n m k v, fun k' hne => get_set_of_ne hne v⟩

/-- Settings of two nodes in turn: of the second, one name is set twice, one to nothing, and one is a name that stands
for the tag. -/
def mixedSettings : List Setting :=
  [⟨⟨1⟩, "left", .str "a"⟩, ⟨⟨0⟩, "left", .str "b"⟩, ⟨⟨1⟩, "type", .str "c"⟩, ⟨⟨1⟩, "right", .null⟩,
    ⟨⟨0⟩, "right", .str "d"⟩, ⟨⟨1⟩, "left", .str "e"⟩]

/-- Two nodes after these settings. -/
def mixedHeap : Heap := setAll { nodes := #[{ tag := "A" }, { tag := "B" }] } mixedSettings

theorem fields_in_order_mixed : (mixedHeap.node ⟨1⟩).fields.keys = ["left", "type", "right"] ∧
    (mixedHeap.node ⟨1⟩).fields.has "right" = true ∧ mixedHeap.get ⟨1⟩ "left" = .str "e" ∧
    mixedHeap.get ⟨1⟩ "right" = .null ∧ (mixedHeap.set ⟨1⟩ "left" .null).get ⟨1⟩ "type" = .str "B" := by
  have hnew : addNode { nodes := #[{ tag := "A" }] } { tag := "B" } =
      (⟨1⟩, { nodes := #[{ tag := "A" }, { tag := "B" }] }) := rfl
  obtain ⟨-, hhas, hkeys, hget, -, hframe⟩ := fields_in_order (x := { tag := "B" }) rfl hnew mixedSettings rfl
  have hright : "right" ∈ (mixedHeap.node ⟨1⟩).fields.keys := by
    rw [mixedHeap, hkeys]
    decide
  refine ⟨hkeys.trans (by decide), (hhas "right").1 hright, ?_, ?_, ?_⟩
  · exact (hget "left" (by decide) (by decide) (by decide)).trans (by decide)
  · exact (hget "right" (by decide) (by decide) (by decide)).trans (by decide)
  · exact ((hframe ⟨1⟩ "left" .null).2 "type" (by decide)).trans (by decide)

end Heap

end Bracketing.Tree
