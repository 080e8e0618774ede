import Bracketing.Proofs.Verdict.Answer

/-!
# Leading position along a path

How leading position changes when a path goes one node further down: to a node in a field (`leads_field`) or to an
element of a list in a field (`leads_element`). The step from the child to its parent is judged by `passage`; if it is
open, the child leads exactly if its parent does.
-/

namespace Bracketing

open Bracketing.Tree

variable {h : Heap} {p : Path}

/-- The ancestors at a node. -/
theorem ancestors_node {g : Grammar} {n : NodeId} (hn : g.isNode h (.node n) = true) (rest : List Value) :
    ∃ name as, ∀ next, Stack.ancestors g h (.node n :: rest) next = ⟨some n, name, next⟩ :: as := by
  cases rest with
  | nil => exact ⟨.null, [], ancestors_root hn⟩
  | cons name rest => exact ⟨name, Stack.ancestors g h rest (some name), ancestors_cons hn name rest⟩

/-- A node in a field has the node around it for its parent. -/
theorem parent_field {n c : NodeId} {rest : List Value} {k : String} (hp : p.stack = .node n :: rest)
    (hn : p.grammar.isNode h (.node n) = true) (hc : p.grammar.isNode h (.node c) = true)
    (hk : h.get n k = .node c) : (p.down h (.str k)).parent h = some n := by
  obtain ⟨name, as, has⟩ := ancestors_node hn rest
  rw [Path.parent_eq, lineage_eq _ _ none, Path.down_grammar, Path.down_stack hp, resolve_field, hk, Stack.ancestors,
    asNode_node hc, has]
  rfl

/-- A node in a list in a field has the node around the list for its parent. -/
theorem parent_element {n c : NodeId} {l : ListId} {i : Nat} {rest : List Value} {k : String}
    (hp : p.stack = .node n :: rest) (hn : p.grammar.isNode h (.node n) = true)
    (hc : p.grammar.isNode h (.node c) = true) (hk : h.get n k = .list l) (hi : (h.list l)[i]? = some (.node c)) :
    ((p.down h (.str k)).down h (.index i)).parent h = some n := by
  obtain ⟨name, as, has⟩ := ancestors_node hn rest
  have hl : (p.down h (.str k)).stack = .list l :: .str k :: .node n :: rest := by
    rw [Path.down_stack hp, resolve_field, hk]
  rw [Path.parent_eq, lineage_eq _ _ none, Path.down_grammar, Path.down_grammar, Path.down_stack hl,
    resolve_element hi, Stack.ancestors, asNode_node hc, Stack.ancestors, asNode_list, has]
  rfl

/-- A node in a field leads as the step to its parent says. -/
theorem leads_field {n c : NodeId} {rest : List Value} {k : String} (hs : p.stack = .node n :: rest)
    (hn : p.grammar.isNode h (.node n) = true) (hc : p.grammar.isNode h (.node c) = true)
    (hk : h.get n k = .node c) (b : Bool) :
    (p.down h (.str k)).leads h b =
      (passage h c (.str k) n (some (.str k))).bind (Passage.lead b (p.leads h b)) := by
  obtain ⟨name, as, has⟩ := ancestors_node hn rest
  simp only [Path.leads_eq, Path.down_grammar, Path.down_stack hs, resolve_field, hk, hs]
  rw [Stack.ancestors, asNode_node hc, has, has]
  exact leadsFrom_cons b c n _ name none _ as

/-- A node in a list in a field leads as the step to the node around the list says. -/
theorem leads_element {n c : NodeId} {l : ListId} {i : Nat} {rest : List Value} {k : String}
    (hs : p.stack = .node n :: rest) (hn : p.grammar.isNode h (.node n) = true)
    (hc : p.grammar.isNode h (.node c) = true) (hk : h.get n k = .list l) (hi : (h.list l)[i]? = some (.node c))
    (b : Bool) :
    ((p.down h (.str k)).down h (.index i)).leads h b =
      (passage h c (.index i) n (some (.str k))).bind (Passage.lead b (p.leads h b)) := by
  obtain ⟨name, as, has⟩ := ancestors_node hn rest
  have hl : (p.down h (.str k)).stack = .list l :: .str k :: .node n :: rest := by
    rw [Path.down_stack hs, resolve_field, hk]
  simp only [Path.leads_eq, Path.down_grammar, Path.down_stack hl, resolve_element hi, hs]
  rw [Stack.ancestors, asNode_node hc, Stack.ancestors, asNode_list, has, has]
  exact leadsFrom_cons b c n _ name none _ as

/-- What a node prints first lets leading position through. -/
theorem passage_leftmost {n c : NodeId} {k : String} (hs : leftmostSlot? h n = some k) (hk : h.get n k = .node c)
    (next : Option Value) : passage h c (.str k) n next = .ok .open := by
  have h1 : h.kind (some n) ≠ .expressionStatement := fun hx => by simp [leftmostSlot?, hx] at hs
  have h2 : h.kind (some n) ≠ .arrowFunction := fun hx => by simp [leftmostSlot?, hx] at hs
  have h3 : h.kind (some n) ≠ .sequence := fun hx => by simp [leftmostSlot?, hx] at hs
  simp only [passage, h1, h2, h3, hs, expectEdge_ok hk, decide_false, Bool.false_and, Bool.false_eq_true, if_false,
    if_true]
  rfl

theorem passage_statement {n c : NodeId} (hn : h.kind (some n) = .expressionStatement)
    (hk : h.get n "expression" = .node c) (next : Option Value) :
    passage h c (.str "expression") n next = .ok .statement := by
  simp only [passage, hn, expectEdge_ok hk]
  rfl

theorem passage_body {n c : NodeId} (hn : h.kind (some n) = .arrowFunction) (hk : h.get n "body" = .node c)
    (next : Option Value) : passage h c (.str "body") n next = .ok .body := by
  simp only [passage, hn, expectEdge_ok hk]
  rfl

/-- The first expression of a sequence lets leading position through. -/
theorem passage_first {n c : NodeId} {l : ListId} (hn : h.kind (some n) = .sequence)
    (hl : h.get n "expressions" = .list l) (hc : (h.list l)[0]? = some (.node c)) :
    passage h c (.index 0) n (some (.str "expressions")) = .ok .open := by
  have hfirst : (h.elements n "expressions").head? = some (.node c) := by
    simp [Heap.elements, hl, List.head?_eq_getElem?, hc]
  simp [passage, hn, hfirst]

/-- Constructions and parentheses print something before what they hold. -/
theorem passage_closed {n : NodeId} (hn : h.kind (some n) = .new ∨ h.kind (some n) = .parenthesized) (c : NodeId)
    (name : Value) (next : Option Value) : passage h c name n next = .ok .closed := by
  rcases hn with hn | hn <;> simp [passage, leftmostSlot?, hn]

/-- What a node prints first leads as the node does. -/
theorem leads_leftmost {n c : NodeId} {rest : List Value} {k : String} (hs : p.stack = .node n :: rest)
    (hn : p.grammar.isNode h (.node n) = true) (hc : p.grammar.isNode h (.node c) = true)
    (hslot : leftmostSlot? h n = some k) (hk : h.get n k = .node c) (b : Bool) :
    (p.down h (.str k)).leads h b = p.leads h b := by
  rw [leads_field hs hn hc hk, passage_leftmost hslot hk]
  rfl

/-- A node with a parent leads as the step to the parent says. -/
theorem exists_leads_eq {n c : NodeId} {rest : List Value} (hs : p.stack = .node c :: rest)
    (hc : p.grammar.isNode h (.node c) = true) (hp : p.parent h = some n) (b : Bool) :
    ∃ next outer, p.leads h b = (passage h c p.name n next).bind (Passage.lead b outer) := by
  rw [Path.parent_eq, lineage_eq p h none, hs] at hp
  rw [Path.leads_eq, hs]
  match rest with
  | [] => simp [Stack.ancestors, asNode_node hc] at hp
  | name :: rest =>
    have hname : p.name = name := by simp [Path.name, hs]
    simp only [Stack.ancestors, asNode_node hc, Option.map_some, Option.toList_some, List.singleton_append,
      List.map_cons, List.getElem?_cons_succ] at hp ⊢
    cases has : Stack.ancestors p.grammar h rest (some name) with
    | nil => simp [has] at hp
    | cons parent as =>
      obtain ⟨m, name', next⟩ := parent
      obtain rfl : m = some n := by simpa [has] using hp
      rw [hname]
      exact ⟨next, _, leadsFrom_cons b c n name name' none next as⟩

end Bracketing
