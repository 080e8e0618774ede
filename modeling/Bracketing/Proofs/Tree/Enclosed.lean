import Bracketing.Proofs.Tree.Acyclic
import Bracketing.Proofs.Tree.Entries
import Bracketing.Tree.Kind

/-!
# Trees with more parentheses

`Heap.enclosing` puts some nodes of a tree in parentheses: wherever a field or a list holds one of them, it holds a new
node instead, which holds the old one as its expression. Nothing else changes.

* **Old nodes** (`get_enclosing`, `kind_enclosing`): they have the tags they had, and hold what they held, in
  parentheses where these were put.
* **What is below** (`below_of_enclosing`, `exists_below_kind_iff`): the same old nodes are below an old node as before.
* **Cycles** (`Acyclic.enclosing`): parentheses make none.
-/

namespace Bracketing.Tree

/-- The record with every value changed. -/
def Record.mapValues (f : Value → Value) (r : Record) : Record where
  entries := r.entries.map fun e => (e.1, f e.2)
  distinct := by simpa [Function.comp_def] using r.distinct

theorem Record.get_mapValues {f : Value → Value} (hf : f .null = .null) (r : Record) (k : String) :
    (r.mapValues f).get k = f (r.get k) := by
  simp only [get, get?, mapValues, lookup_map_snd]
  cases r.entries.lookup k with
  | none => exact hf.symm
  | some v => rfl

theorem Record.keys_mapValues (f : Value → Value) (r : Record) : (r.mapValues f).keys = r.keys := by
  simp [keys, mapValues, Function.comp_def]

/-- Parentheses around a node, without a mark of their own. -/
def parenNode (n : NodeId) : Node where
  tag := Kind.parenthesized.tag
  fields := .ofEntries [("expression", .node n)]

namespace Heap

variable {h : Heap} {ns : List NodeId} {n : NodeId} {v w : Value}

/-- The parentheses of a node among those that get some; they come after all nodes of the heap. -/
def wrapper (h : Heap) (ns : List NodeId) (n : NodeId) : NodeId := ⟨h.nodes.size + ns.idxOf n⟩

/-- What stands in the place of a value: the parentheses of a node that gets some. -/
def wrap (h : Heap) (ns : List NodeId) : Value → Value
  | .node n => if n ∈ ns then .node (h.wrapper ns n) else .node n
  | v => v

/-- The heap where the given nodes stand in parentheses. -/
def enclosing (h : Heap) (ns : List NodeId) : Heap :=
  { h with
    nodes := h.nodes.map (fun x => { x with fields := x.fields.mapValues (h.wrap ns) }) ++ (ns.map parenNode).toArray
    lists := h.lists.map (·.map (h.wrap ns)) }

/-- Every node below the value is one of the heap. -/
def Closed (h : Heap) (v : Value) : Prop := ∀ n, h.Below v (.node n) → n.index < h.nodes.size

/-! ## Values -/

theorem wrap_of_mem (hn : n ∈ ns) : h.wrap ns (.node n) = .node (h.wrapper ns n) := if_pos hn

theorem wrap_of_not_mem (hn : n ∉ ns) : h.wrap ns (.node n) = .node n := if_neg hn

/-- What is a node of the heap after the change is one that was there before and has no parentheses. -/
theorem wrap_eq_node_iff (hn : n.index < h.nodes.size) : h.wrap ns v = .node n ↔ v = .node n ∧ n ∉ ns := by
  constructor
  · intro he
    cases v with
    | node m =>
      by_cases hm : m ∈ ns
      · rw [wrap_of_mem hm, Value.node.injEq] at he
        simp only [wrapper, ← he] at hn
        omega
      · rw [wrap_of_not_mem hm, Value.node.injEq] at he
        exact ⟨by rw [he], he ▸ hm⟩
    | _ => cases he
  · rintro ⟨rfl, hm⟩
    exact wrap_of_not_mem hm

theorem wrapper_index (n : NodeId) : h.nodes.size ≤ (h.wrapper ns n).index := Nat.le_add_right _ _

theorem wrapper_injective {m : NodeId} (hn : n ∈ ns) (he : h.wrapper ns m = h.wrapper ns n) : m = n := by
  simp only [wrapper, NodeId.mk.injEq, Nat.add_left_cancel_iff] at he
  exact ((List.idxOf_inj hn).1 he.symm).symm

/-! ## Objects -/

theorem node_enclosing (hn : n.index < h.nodes.size) : (h.enclosing ns).node n =
    { h.node n with fields := (h.node n).fields.mapValues (h.wrap ns) } := by
  simp [node, enclosing, Array.getD_eq_getD_getElem?, Array.getElem?_append, hn]

theorem node_wrapper (hn : n ∈ ns) : (h.enclosing ns).node (h.wrapper ns n) = parenNode n := by
  have hlt := List.idxOf_lt_length_of_mem hn
  simp [node, enclosing, wrapper, Array.getD_eq_getD_getElem?, hlt]

theorem list_enclosing (l : ListId) : (h.enclosing ns).list l = (h.list l).map (h.wrap ns) := by
  simp only [list, enclosing, Array.getD_eq_getD_getElem?, Array.getElem?_map]
  cases h.lists[l.index]? with
  | none => rfl
  | some vs => rfl

/-- A node of the heap holds what it held, in parentheses where these were put. -/
theorem get_enclosing (hn : n.index < h.nodes.size) (k : String) :
    (h.enclosing ns).get n k = h.wrap ns (h.get n k) := by
  simp only [get, node_enclosing hn]
  split
  · rfl
  split
  · cases (h.node n).location <;> rfl
  split
  · cases (h.node n).extra <;> rfl
  · exact Record.get_mapValues rfl _ k

theorem keys_enclosing (hn : n.index < h.nodes.size) :
    ((h.enclosing ns).node n).fields.keys = (h.node n).fields.keys := by
  rw [node_enclosing hn, Record.keys_mapValues]

theorem tag_enclosing (hn : n.index < h.nodes.size) : ((h.enclosing ns).node n).tag = (h.node n).tag := by
  rw [node_enclosing hn]

theorem kind_enclosing (hn : n.index < h.nodes.size) : (h.enclosing ns).kind (some n) = h.kind (some n) := by
  rw [kind, kind, tag_enclosing hn]

theorem kind_wrapper (hn : n ∈ ns) : (h.enclosing ns).kind (some (h.wrapper ns n)) = .parenthesized := by
  rw [kind, node_wrapper hn]
  exact Kind.ofTag_tag .parenthesized

theorem textAt_enclosing (hn : n.index < h.nodes.size) (k : String) :
    (h.enclosing ns).textAt n k = h.textAt n k := by
  unfold textAt
  rw [get_enclosing hn]
  cases h.get n k with
  | node m => by_cases hm : m ∈ ns <;> simp [wrap, hm]
  | _ => rfl

theorem flagAt_enclosing (hn : n.index < h.nodes.size) (k : String) :
    (h.enclosing ns).flagAt n k = h.flagAt n k := by
  unfold flagAt
  rw [get_enclosing hn]
  cases h.get n k with
  | node m => by_cases hm : m ∈ ns <;> simp [wrap, hm]
  | _ => rfl

theorem parenthesized_enclosing (hn : n.index < h.nodes.size) :
    (h.enclosing ns).parenthesized n = h.parenthesized n := by
  unfold parenthesized
  rw [node_enclosing hn]
  rfl

theorem start_enclosing (hn : n.index < h.nodes.size) : (h.enclosing ns).start n = h.start n := by
  unfold start location?
  rw [node_enclosing hn]
  rfl

theorem elements_enclosing (hn : n.index < h.nodes.size) (k : String) :
    (h.enclosing ns).elements n k = (h.elements n k).map (h.wrap ns) := by
  unfold elements
  rw [get_enclosing hn]
  cases h.get n k with
  | node m => by_cases hm : m ∈ ns <;> simp [wrap, hm]
  | list l => exact list_enclosing l
  | _ => rfl

/-- A child is of the kind it was, unless it has got parentheses. -/
theorem kind_child_enclosing {k : String} (hn : n.index < h.nodes.size)
    (hc : ∀ c, h.child? n k = some c → c.index < h.nodes.size) :
    (h.enclosing ns).kind ((h.enclosing ns).child? n k) = h.kind (h.child? n k) ∨
      (h.enclosing ns).kind ((h.enclosing ns).child? n k) = .parenthesized := by
  unfold child? at *
  rw [get_enclosing hn]
  cases hv : h.get n k with
  | node m =>
    rw [hv] at hc
    by_cases hm : m ∈ ns
    · rw [wrap_of_mem hm]
      exact .inr (kind_wrapper hm)
    · rw [wrap_of_not_mem hm]
      exact .inl (kind_enclosing (hc m rfl))
  | _ => exact .inl rfl

/-! ## What is below -/

theorem Closed.of_below (hv : h.Closed v) (hw : h.Below v w) : h.Closed w := fun n hn => hv n (hw.trans hn)

/-- A heap that refers to its own nodes only is closed everywhere. -/
theorem closed_of_members (hr : n.index < h.nodes.size)
    (hn : ∀ i < h.nodes.size, ∀ w ∈ h.members (.node ⟨i⟩), nodePlace w ≤ h.nodes.size)
    (hl : ∀ i < h.lists.size, ∀ w ∈ h.members (.list ⟨i⟩), nodePlace w ≤ h.nodes.size) : h.Closed (.node n) := by
  intro m hm
  rcases Relation.ReflTransGen.cases_tail hm with he | ⟨u, -, hu⟩
  · cases he
    exact hr
  · cases u with
    | node k => exact hn k.index (node_index_lt hu) _ hu
    | list l => exact hl l.index (list_index_lt hu) _ hu
    | _ => simp [Member, members] at hu

theorem members_enclosing_node (hn : n.index < h.nodes.size) :
    (h.enclosing ns).members (.node n) = (h.members (.node n)).map (h.wrap ns) := by
  simp [members, node_enclosing hn, Record.mapValues]

theorem members_enclosing_list (l : ListId) :
    (h.enclosing ns).members (.list l) = (h.members (.list l)).map (h.wrap ns) := list_enclosing l

theorem members_wrapper (hn : n ∈ ns) : (h.enclosing ns).members (.node (h.wrapper ns n)) = [.node n] := by
  rw [members, node_wrapper hn]
  rfl

/-- What was a member is one, in parentheses where these were put. -/
theorem member_enclosing (hv : h.Closed v) (hw : h.Member v w) : (h.enclosing ns).Member v (h.wrap ns w) := by
  cases v with
  | node n =>
    rw [Member, members_enclosing_node (hv n .refl)]
    exact List.mem_map_of_mem hw
  | list l =>
    rw [Member, members_enclosing_list]
    exact List.mem_map_of_mem hw
  | _ => simp [Member, members] at hw

/-- What has got parentheses is below them. -/
theorem below_wrap (v : Value) : (h.enclosing ns).Below (h.wrap ns v) v := by
  cases v with
  | node n =>
    by_cases hn : n ∈ ns
    · rw [wrap_of_mem hn]
      refine .single ?_
      rw [Member, members_wrapper hn]
      exact List.mem_singleton.2 rfl
    · rw [wrap_of_not_mem hn]
      exact .refl
  | _ => exact .refl

theorem below_enclosing (hv : h.Closed v) (hw : h.Below v w) : (h.enclosing ns).Below v w := by
  induction hw with
  | refl => exact .refl
  | @tail u w hu huw ih =>
    exact (ih.tail (member_enclosing (hv.of_below hu) huw)).trans (below_wrap w)

/-- A member of what was there is one that it had, or the parentheses of one. -/
theorem member_of_enclosing (hv : h.Closed v) (hw : (h.enclosing ns).Member v w) :
    h.Member v w ∨ ∃ n ∈ ns, w = .node (h.wrapper ns n) ∧ h.Member v (.node n) := by
  have hmap : w ∈ (h.members v).map (h.wrap ns) := by
    cases v with
    | node n => rwa [Member, members_enclosing_node (hv n .refl)] at hw
    | list l => rwa [Member, members_enclosing_list] at hw
    | _ => simp [Member, members] at hw
  obtain ⟨u, hu, rfl⟩ := List.mem_map.1 hmap
  cases u with
  | node n =>
    by_cases hn : n ∈ ns
    · exact .inr ⟨n, hn, wrap_of_mem hn, hu⟩
    · exact .inl (by rwa [wrap_of_not_mem hn])
  | _ => exact .inl hu

/-- What is strictly below something that was there was so before, or is the parentheses of what was. -/
theorem transGen_of_enclosing (hv : h.Closed v) (hw : Relation.TransGen (h.enclosing ns).Member v w) :
    Relation.TransGen h.Member v w ∨
      ∃ n ∈ ns, w = .node (h.wrapper ns n) ∧ Relation.TransGen h.Member v (.node n) := by
  induction hw with
  | single hw => exact (member_of_enclosing hv hw).imp .single fun ⟨n, hn, he, hm⟩ => ⟨n, hn, he, .single hm⟩
  | tail _ hw ih =>
    rcases ih with hu | ⟨n, hn, rfl, hu⟩
    · have hc := hv.of_below hu.to_reflTransGen
      exact (member_of_enclosing hc hw).imp hu.tail fun ⟨n, hn, he, hm⟩ => ⟨n, hn, he, hu.tail hm⟩
    · -- below parentheses there is only what they hold
      rw [Member, members_wrapper hn, List.mem_singleton] at hw
      exact .inl (hw ▸ hu)

theorem below_of_enclosing (hv : h.Closed v) (hw : (h.enclosing ns).Below v w) :
    h.Below v w ∨ ∃ n ∈ ns, w = .node (h.wrapper ns n) ∧ h.Below v (.node n) := by
  rcases Relation.reflTransGen_iff_eq_or_transGen.1 hw with rfl | hw
  · exact .inl .refl
  · exact (transGen_of_enclosing hv hw).imp (·.to_reflTransGen) fun ⟨n, hn, he, hm⟩ => ⟨n, hn, he, hm.to_reflTransGen⟩

/-- Parentheses make no cycle. -/
theorem Acyclic.enclosing (ha : h.Acyclic v) (hc : h.Closed v) (ns : List NodeId) : (h.enclosing ns).Acyclic v := by
  -- what was there is not strictly below itself, nor are parentheses below what they hold
  have hold : ∀ w, h.Below v w → ¬ Relation.TransGen (h.enclosing ns).Member w w := by
    intro w hw hcycle
    rcases transGen_of_enclosing (hc.of_below hw) hcycle with hcycle | ⟨n, -, rfl, -⟩
    · exact ha w hw hcycle
    · exact absurd (hc _ hw) (Nat.not_lt.2 (wrapper_index n))
  intro w hw hcycle
  rcases below_of_enclosing hc hw with hw | ⟨n, hn, rfl, hbelow⟩
  · exact hold w hw hcycle
  · obtain ⟨u, hu, hback⟩ := Relation.TransGen.head'_iff.1 hcycle
    rw [Member, members_wrapper hn, List.mem_singleton] at hu
    subst hu
    refine hold _ hbelow (.tail' hback ?_)
    rw [Member, members_wrapper hn]
    exact List.mem_singleton.2 rfl

/-- The same nodes of a kind other than that of parentheses are below. -/
theorem exists_below_kind_iff {k : Kind} (hv : h.Closed v) (hk : k ≠ .parenthesized) :
    (∃ m, (h.enclosing ns).Below v (.node m) ∧ (h.enclosing ns).kind (some m) = k) ↔
      ∃ m, h.Below v (.node m) ∧ h.kind (some m) = k := by
  constructor
  · rintro ⟨m, hm, hkind⟩
    rcases below_of_enclosing hv hm with hm | ⟨n, hn, he, -⟩
    · exact ⟨m, hm, by rwa [kind_enclosing (hv m hm)] at hkind⟩
    · obtain rfl := Value.node.inj he
      exact absurd ((kind_wrapper hn).symm.trans hkind) hk.symm
  · rintro ⟨m, hm, hkind⟩
    exact ⟨m, below_enclosing hv hm, by rwa [kind_enclosing (hv m hm)]⟩

theorem exists_below_wrapper_iff {k : Kind} (hn : n ∈ ns) (hc : h.Closed (.node n)) (hk : k ≠ .parenthesized) :
    (∃ m, (h.enclosing ns).Below (.node (h.wrapper ns n)) (.node m) ∧ (h.enclosing ns).kind (some m) = k) ↔
      ∃ m, h.Below (.node n) (.node m) ∧ h.kind (some m) = k := by
  rw [← exists_below_kind_iff hc hk]
  constructor
  · rintro ⟨m, hm, hkind⟩
    rcases Relation.ReflTransGen.cases_head hm with he | ⟨w, hw, hm⟩
    · obtain rfl := Value.node.inj he
      exact absurd ((kind_wrapper hn).symm.trans hkind) hk.symm
    · rw [Member, members_wrapper hn, List.mem_singleton] at hw
      exact ⟨m, hw ▸ hm, hkind⟩
  · rintro ⟨m, hm, hkind⟩
    refine ⟨m, .head ?_ hm, hkind⟩
    rw [Member, members_wrapper hn]
    exact List.mem_singleton.2 rfl

/-- Putting nothing in parentheses changes nothing. -/
theorem enclosing_nil (h : Heap) : h.enclosing [] = h := by
  have hwrap : h.wrap [] = id := by
    funext v
    cases v <;> simp [wrap]
  have hnode : (fun x : Node => { x with fields := x.fields.mapValues id }) = id := by
    funext x
    simp [Record.mapValues]
  simp [enclosing, hwrap, hnode]

end Heap

end Bracketing.Tree
