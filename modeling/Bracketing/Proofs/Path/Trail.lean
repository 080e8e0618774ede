import Bracketing.Proofs.Path.Indices
import Bracketing.Verdict.Decide

/-!
# Trails

A trail is a stack as a traversal of one tree leaves it: every value is the member of the one before it that the name
between them gives, and a traversal only goes on from lists and from what the grammar takes for nodes.

The nodes of a trail follow each other along edges of the tree (`Trail.edge`): a node whose name is a text is what its
parent holds under that text, and a node at the head of the expressions of a sequence is the first of them.
-/

namespace Bracketing

open Bracketing.Tree

variable {g : Grammar} {h : Heap}

/-- A traversal may go on from the value to its members. -/
def Passes (g : Grammar) (h : Heap) : Value → Prop
  | .node n => g.isNode h (.node n) = true
  | .list _ => True
  | _ => False

/-- A stack in which every value is a member of the one before. -/
inductive Trail (g : Grammar) (h : Heap) : List Value → Prop
  | root (v : Value) : Trail g h [v]
  | named (v name : Value) : Trail g h [v, name]
  | down {v : Value} {rest : List Value} (name : Value) : Trail g h (v :: rest) → Passes g h v →
      Trail g h (Path.resolve h v name :: name :: v :: rest)

theorem Trail.ne_nil {stack : List Value} (ht : Trail g h stack) : stack ≠ [] := by
  cases ht <;> simp

/-! ## Paths further down -/

/-- The path one member further down. -/
def Path.down (p : Path) (h : Heap) (name : Value) : Path :=
  match p.stack with
  | v :: _ => p.push name (resolve h v name)
  | [] => p.push name .null

@[simp] theorem Path.down_grammar (p : Path) (h : Heap) (name : Value) : (p.down h name).grammar = p.grammar := by
  unfold Path.down
  split <;> rfl

theorem Path.down_stack {p : Path} {v : Value} {rest : List Value} (hs : p.stack = v :: rest) (name : Value) :
    (p.down h name).stack = Path.resolve h v name :: name :: v :: rest := by
  simp [Path.down, hs, Path.push]

theorem Path.down_name {p : Path} {v : Value} {rest : List Value} (hs : p.stack = v :: rest) (name : Value) :
    (p.down h name).name = name := by
  simp [Path.name, Path.down_stack hs]

theorem resolve_field (h : Heap) (n : NodeId) (k : String) : Path.resolve h (.node n) (.str k) = h.get n k := rfl

theorem resolve_element {l : ListId} {i : Nat} {v : Value} (hv : (h.list l)[i]? = some v) :
    Path.resolve h (.list l) (.index i) = v := by
  simp [Path.resolve, hv]

/-! ## Members by name -/

theorem resolve_eq_node {n c : NodeId} {name : Value} (hr : Path.resolve h (.node n) name = .node c) :
    ∃ k, name = .str k ∧ h.get n k = .node c := by
  cases name with
  | str k => exact ⟨k, rfl, hr⟩
  | _ => simp [Path.resolve] at hr

theorem resolve_node_eq_list {n : NodeId} {l : ListId} {name : Value}
    (hr : Path.resolve h (.node n) name = .list l) : ∃ k, name = .str k ∧ h.get n k = .list l := by
  cases name with
  | str k => exact ⟨k, rfl, hr⟩
  | _ => simp [Path.resolve] at hr

/-- What a list gives is one of its elements, unless it is nothing. -/
theorem resolve_list_eq {l : ListId} {name v : Value} (hr : Path.resolve h (.list l) name = v) (hv : v ≠ .null) :
    ∃ i : Nat, name = .index i ∧ (h.list l)[i]? = some v := by
  cases name with
  | index i =>
    by_cases hi : 0 ≤ i
    · simp only [Path.resolve, hi, if_true] at hr
      cases he : (h.list l)[i.toNat]? with
      | none => rw [he] at hr; exact absurd hr.symm hv
      | some w =>
        rw [he] at hr
        exact ⟨i.toNat, by rw [Int.toNat_of_nonneg hi], by rw [he, ← hr]; rfl⟩
    · simp only [Path.resolve, hi, if_false] at hr
      exact absurd hr.symm hv
  | _ => exact absurd hr.symm hv

/-! ## The nodes of a stack -/

theorem asNode_list (l : ListId) : g.asNode h (.list l) = none := by
  simp [Grammar.asNode]

theorem asNode_node {n : NodeId} (hn : g.isNode h (.node n) = true) : g.asNode h (.node n) = some (some n) := by
  simp [Grammar.asNode, hn]

section Ancestors

variable {n : NodeId} (hn : g.isNode h (.node n) = true)
include hn

theorem ancestors_root (next : Option Value) : Stack.ancestors g h [.node n] next = [⟨some n, .null, next⟩] := by
  simp [Stack.ancestors, asNode_node hn]

theorem ancestors_cons (name : Value) (rest : List Value) (next : Option Value) :
    Stack.ancestors g h (.node n :: name :: rest) next =
      ⟨some n, name, next⟩ :: Stack.ancestors g h rest (some name) := by
  simp [Stack.ancestors, asNode_node hn]

end Ancestors

/-- A value that counts as a certain node is that node. -/
theorem eq_node_of_asNode {v : Value} {c : NodeId} (hv : g.asNode h v = some (some c)) : v = .node c := by
  unfold Grammar.asNode at hv
  split at hv
  · cases v <;> simp_all
  · cases hv

/-- The lineage of a path is the nodes of its ancestors. -/
theorem filterMap_values : ∀ (stack : List Value) (next : Option Value),
    (Stack.values stack).filterMap (g.asNode h) = (Stack.ancestors g h stack next).map Ancestor.node
  | [], _ => rfl
  | [v], next => by
    cases hv : g.asNode h v <;> simp [Stack.values, Stack.ancestors, hv]
  | v :: name :: rest, next => by
    have ih := filterMap_values rest (some name)
    cases hv : g.asNode h v <;> simp [Stack.values, Stack.ancestors, hv, ih]

theorem lineage_eq (p : Path) (h : Heap) (next : Option Value) :
    p.lineage h = (Stack.ancestors p.grammar h p.stack next).map Ancestor.node :=
  filterMap_values p.stack next

theorem Path.node_eq (p : Path) (h : Heap) : p.node h = ((p.lineage h)[0]?).join := by
  have : passedOver 0 = 0 := by decide
  rw [Path.node_eq_lineage, this]

theorem Path.parent_eq (p : Path) (h : Heap) : p.parent h = ((p.lineage h)[1]?).join := by
  have : passedOver (0 + 1) = 1 := by decide
  rw [Path.parent, Path.node_eq_lineage, this]

/-- The nearest node is the tip, if that is a node. -/
theorem Path.node_of_tip {p : Path} {n : NodeId} {rest : List Value} (hs : p.stack = .node n :: rest)
    (hn : p.grammar.isNode h (.node n) = true) : p.node h = some n := by
  rw [Path.node_eq, lineage_eq p h none, hs]
  cases rest <;> simp [Stack.ancestors, asNode_node hn]

/-! ## Edges -/

/-- No element of the expressions of a sequence is a list. -/
def FlatSequence (h : Heap) (n : NodeId) : Prop :=
  h.kind (some n) = .sequence → ∀ l, .list l ∉ h.elements n "expressions"

/-- The tree holds the child where its name says, as far as the rules on leading position ask. -/
structure Edge (h : Heap) (child parent : Ancestor) (c p : NodeId) : Prop where
  field : ∀ k, child.name = .str k → h.get p k = .node c
  first : child.name = .index 0 → parent.next = some (.str "expressions") → h.kind (some p) = .sequence →
    (h.elements p "expressions").head? = some (.node c)

/-- The nearest node around a list holds the list itself, or a list of lists. -/
theorem Trail.around_list {stack : List Value} (ht : Trail g h stack) : ∀ {l : ListId} {rest : List Value}
    {next : Option Value} {a : Ancestor} {as : List Ancestor} {p : NodeId}, stack = .list l :: rest →
    Stack.ancestors g h stack next = a :: as → a.node = some p →
    ∃ k l', a.next = some (.str k) ∧ h.get p k = .list l' ∧ (l' = l ∨ ∃ m, .list m ∈ h.list l') := by
  induction ht with
  | root v =>
    rintro l rest next a as p he ha -
    cases he
    simp [Stack.ancestors, asNode_list] at ha
  | named v name =>
    rintro l rest next a as p he ha -
    cases he
    simp [Stack.ancestors, asNode_list] at ha
  | @down v rest name ht hv ih =>
    intro l rest' next a as p he ha hp
    obtain ⟨hl, -⟩ := List.cons.inj he
    rw [hl, Stack.ancestors, asNode_list, Option.map_none, Option.toList_none, List.nil_append] at ha
    cases v with
    | node n =>
      obtain ⟨k, rfl, hk⟩ := resolve_node_eq_list hl
      have hn := asNode_node hv
      cases rest <;> simp [Stack.ancestors, hn] at ha <;> obtain ⟨rfl, -⟩ := ha <;> cases hp <;>
        exact ⟨k, l, rfl, hk, .inl rfl⟩
    | list m =>
      obtain ⟨i, -, hi⟩ := resolve_list_eq hl (by simp)
      obtain ⟨k, l', hk, hl', hm⟩ := ih rfl ha hp
      refine ⟨k, l', hk, hl', .inr ?_⟩
      rcases hm with rfl | hm
      · exact ⟨l, List.mem_of_getElem? hi⟩
      · exact hm
    | _ => exact False.elim hv

/-- The nodes of a trail follow each other along edges of the tree. -/
theorem Trail.edge {w name : Value} {rest : List Value} {c p : NodeId} {child parent : Ancestor}
    {as : List Ancestor} (ht : Trail g h (w :: name :: rest)) (hw : w = .node c) (hname : child.name = name)
    (has : Stack.ancestors g h rest (some name) = parent :: as) (hp : parent.node = some p)
    (hflat : FlatSequence h p) : Edge h child parent c p := by
  cases ht with
  | named v name => simp [Stack.ancestors] at has
  | @down v rest' name ht hv =>
    cases v with
    | node n =>
      obtain ⟨k, rfl, hk⟩ := resolve_eq_node hw
      have hn := asNode_node hv
      have : p = n := by
        cases rest' <;> simp [Stack.ancestors, hn] at has <;> obtain ⟨rfl, -⟩ := has <;> cases hp <;> rfl
      subst this
      refine ⟨fun k' hk' => ?_, fun h0 => ?_⟩
      · rw [hname] at hk'
        cases hk'
        exact hk
      · rw [hname] at h0
        cases h0
    | list l =>
      obtain ⟨i, rfl, hi⟩ := resolve_list_eq hw (by simp)
      refine ⟨fun k hk => ?_, fun h0 hx hseq => ?_⟩
      · rw [hname] at hk
        cases hk
      · rw [hname] at h0
        have hi0 : i = 0 := by simpa using h0
        subst hi0
        obtain ⟨k, l', hk, hl', hm⟩ := ht.around_list rfl has hp
        rw [hx] at hk
        cases hk
        have he : h.elements p "expressions" = h.list l' := by simp [Heap.elements, hl']
        rcases hm with rfl | ⟨m, hm⟩
        · rw [he, List.head?_eq_getElem?, hi]
        · exact absurd (he ▸ hm) (hflat hseq m)
    | _ => exact False.elim hv

end Bracketing
