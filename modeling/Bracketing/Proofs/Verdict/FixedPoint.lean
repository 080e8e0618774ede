import Bracketing.Proofs.Path.Walked
import Bracketing.Proofs.Verdict.Explicit

/-!
# A second round of parentheses

`Heap.explicit` puts every node of a tree that needs parentheses in some. The verdicts on the new tree are all known.

* **Stacks** (`Covers.exists_image`, `Covers.exists_mirrored`): every stack of the new tree is one of the old tree with
  parentheses in between, or ends at such parentheses, and every stack of the old tree has one in the new tree.
* **Verdicts** (`Covers.decide_mirrored`, `Covers.decide_parens`): no old node needs parentheses any more. New
  parentheses need some only as the callee of a construction, if there is a call in them: the search for the call does
  not stop at parentheses.
* **A fixed point** (`explicit_settles`): so the second round changes nothing, unless it finds such a callee.
-/

namespace Bracketing

open Bracketing.Tree Bracketing.Tree.Heap Stack

variable {h : Heap} {ns : List NodeId} {root n : NodeId} {v w name : Value} {st st' rest : List Value}

/-! ## Children beside parentheses -/

theorem branches_wrap (v : Value) : Value.branches (h.wrap ns v) = Value.branches v := by
  cases v with
  | node m => by_cases hm : m ∈ ns <;> simp [wrap, hm, Value.branches]
  | _ => rfl

theorem elementAt_enclosing (l : ListId) (i : Nat) :
    elementAt (h.enclosing ns) l i = h.wrap ns (elementAt h l i) := by
  simp only [elementAt, list_enclosing, List.getElem?_map]
  cases (h.list l)[i]? <;> rfl

theorem wrap_eq_null_iff : h.wrap ns v = .null ↔ v = .null := by
  cases v with
  | node m => by_cases hm : m ∈ ns <;> simp [wrap, hm]
  | _ => simp [wrap]

/-- The children of a stack are those it had, in parentheses where these were put. -/
theorem mem_children_enclosing {x : List Value} (hv : ∀ n, v = .node n → n.index < h.nodes.size)
    (st st' : List Value) : x ∈ children (h.enclosing ns) (v :: st') ↔
      ∃ w name, w :: name :: v :: st ∈ children h (v :: st) ∧ x = h.wrap ns w :: name :: v :: st' := by
  cases v with
  | node n =>
    have hn := hv n rfl
    simp only [children, List.mem_map, List.mem_filter, keys_enclosing hn, get_enclosing hn, branches_wrap, atField]
    constructor
    · rintro ⟨k, hk, rfl⟩
      exact ⟨h.get n k, .str k, ⟨k, hk, rfl⟩, rfl⟩
    · rintro ⟨w, name, ⟨k, hk, he⟩, rfl⟩
      cases he
      exact ⟨k, hk, rfl⟩
  | list l =>
    simp only [children, List.mem_map, List.mem_filter, list_enclosing, List.length_map, elementAt_enclosing, ne_eq,
      wrap_eq_null_iff, atIndex]
    constructor
    · rintro ⟨i, hi, rfl⟩
      exact ⟨elementAt h l i, .index i, ⟨i, hi, rfl⟩, rfl⟩
    · rintro ⟨w, name, ⟨i, hi, he⟩, rfl⟩
      cases he
      exact ⟨i, hi, rfl⟩
  | _ => simp [children]

theorem children_wrapper (hn : n ∈ ns) (st : List Value) :
    children (h.enclosing ns) (.node (h.wrapper ns n) :: st) =
      [.node n :: .str "expression" :: .node (h.wrapper ns n) :: st] := by
  have hget : (h.enclosing ns).get (h.wrapper ns n) "expression" = .node n := by
    simp only [Heap.get, node_wrapper hn]
    rfl
  have hkeys : ((h.enclosing ns).node (h.wrapper ns n)).fields.keys = ["expression"] := by
    rw [node_wrapper hn]
    rfl
  simp [children, hkeys, hget, Value.branches, atField]

theorem passes_enclosing (hv : ∀ n, v = .node n → n.index < h.nodes.size) :
    Passes .standard (h.enclosing ns) v ↔ Passes .standard h v := by
  cases v with
  | node n => exact iff_of_eq (congrArg (· = true) (isNode_enclosing (hv n rfl)))
  | _ => exact Iff.rfl

/-- A value gets parentheses or stays as it is. -/
theorem wrap_cases (v : Value) : (∃ n ∈ ns, v = .node n) ∨ h.wrap ns v = v ∧ ∀ n, v = .node n → n ∉ ns := by
  cases v with
  | node m =>
    by_cases hm : m ∈ ns
    · exact .inl ⟨m, hm, rfl⟩
    · refine .inr ⟨wrap_of_not_mem hm, ?_⟩
      rintro _ ⟨⟩
      exact hm
  | _ => exact .inr ⟨rfl, by rintro _ ⟨⟩⟩

/-! ## Stacks of the new tree -/

/-- The second stack is a stack of the new tree: it mirrors the first, or it ends at the parentheses of its tip. -/
inductive Images (h : Heap) (ns : List NodeId) : List Value → List Value → Prop
  | mirror {st st' : List Value} : Mirrors h ns st st' → Images h ns st st'
  | parens {v : Value} {st st' : List Value} {n : NodeId} (name : Value) (hn : n ∈ ns) :
      Mirrors h ns (v :: st) (v :: st') → Images h ns (.node n :: name :: v :: st)
        (.node (h.wrapper ns n) :: name :: v :: st')

theorem Mirrors.exists_tip (hm : Mirrors h ns st st') : ∃ v rest rest', st = v :: rest ∧ st' = v :: rest' := by
  cases hm with
  | root v => exact ⟨v, _, _, rfl, rfl⟩
  | kept => exact ⟨_, _, _, rfl, rfl⟩
  | enclosed => exact ⟨_, _, _, rfl, rfl⟩

/-- Verdicts on the tree below the root are known, and the nodes are those that need parentheses somewhere: all others
need none anywhere. -/
structure Covers (h : Heap) (root : NodeId) (ns : List NodeId) : Prop where
  acyclic : h.Acyclic (.node root)
  closed : h.Closed (.node root)
  patternless : ∀ n, h.Below (.node root) (.node n) →
    ¬ (h.kind (some n) = .assignment ∧ h.kind (h.child? n "left") = .objectPattern)
  isNode : ∀ n ∈ ns, Grammar.standard.isNode h (.node n) = true
  bare : ∀ {n : NodeId} {rest : List Value}, Reached .standard h [.node root] (.node n :: rest) → n ∉ ns →
    ∃ r, (Path.ofStack (.node n :: rest)).decide h false = .ok ⟨false, r⟩

namespace Covers

variable (hcov : Covers h root ns)
include hcov

theorem index_lt (hr : Reached .standard h [.node root] (v :: rest)) : ∀ n, v = .node n → n.index < h.nodes.size := by
  rintro n rfl
  exact hcov.closed n hr.tip_below

theorem closed_of_values (hr : Reached .standard h [.node root] st) :
    ∀ m, .node m ∈ Stack.values st → h.Closed (.node m) := by
  intro m hm
  exact hcov.closed.of_below (hr.below_root rfl _ hm)

theorem acyclic_enclosing : (h.enclosing ns).Acyclic (.node root) := hcov.acyclic.enclosing hcov.closed ns

/-- Every stack of the new tree comes from one of the old tree. -/
theorem exists_image (hr : Reached .standard (h.enclosing ns) [.node root] st') :
    ∃ st, Reached .standard h [.node root] st ∧ Images h ns st st' := by
  induction hr with
  | start he =>
    refine ⟨_, .start ?_, .mirror (.root _)⟩
    have hroot := hcov.closed root .refl
    simpa [enters, Stack.values, isNode_enclosing hroot] using he
  | @child st' x hst' hx he ih =>
    clear hst'
    obtain ⟨st, hst, hi⟩ := ih
    cases hi with
    | mirror hm =>
      obtain ⟨v, rest, rest', rfl, rfl⟩ := hm.exists_tip
      obtain ⟨w, name, hw, rfl⟩ := (mem_children_enclosing (hcov.index_lt hst) rest rest').1 hx
      rcases @wrap_cases h ns w with ⟨m, hin, rfl⟩ | ⟨hwrap, hbare⟩
      · rw [wrap_of_mem hin]
        exact ⟨_, hst.child_of_passes hcov.acyclic hw (hcov.isNode m hin), .parens name hin hm⟩
      · rw [hwrap] at he ⊢
        obtain ⟨name', hres, hmem⟩ := resolve_of_mem_children hw
        obtain ⟨rfl, -⟩ := List.cons.inj hres
        have hlt : ∀ n, Path.resolve h v name' = .node n → n.index < h.nodes.size := by
          intro n hn
          exact hcov.closed n (hst.tip_below.tail (hn ▸ hmem))
        have hpass := (passes_enclosing hlt).1 (passes_of_enters_standard he)
        exact ⟨_, hst.child_of_passes hcov.acyclic hw hpass, .mirror (.kept name hbare hm)⟩
    | parens name hin hm =>
      -- the only child of the parentheses is the node itself, so the old stack stays
      rw [children_wrapper hin, List.mem_singleton] at hx
      subst hx
      exact ⟨_, hst, .mirror (.enclosed name hin hm)⟩

/-- The parentheses of a node stand where the node stood. -/
theorem reached_parens (hr : Reached .standard h [.node root] (v :: st))
    (hr' : Reached .standard (h.enclosing ns) [.node root] (v :: st')) (hin : n ∈ ns)
    (hx : .node n :: name :: v :: st ∈ children h (v :: st)) :
    Reached .standard (h.enclosing ns) [.node root] (.node (h.wrapper ns n) :: name :: v :: st') := by
  refine hr'.child_of_passes hcov.acyclic_enclosing ?_ (isNode_wrapper hin)
  exact (mem_children_enclosing (hcov.index_lt hr) st st').2 ⟨_, name, hx, by rw [wrap_of_mem hin]⟩

/-- Every stack of the old tree has one in the new tree. -/
theorem exists_mirrored (hr : Reached .standard h [.node root] st) :
    ∃ st', Reached .standard (h.enclosing ns) [.node root] st' ∧ Mirrors h ns st st' := by
  induction hr with
  | start he =>
    refine ⟨_, .start ?_, .root _⟩
    have hroot := hcov.closed root .refl
    simpa [enters, Stack.values, isNode_enclosing hroot] using he
  | @child st x hst hx he ih =>
    obtain ⟨st', hst', hm⟩ := ih
    obtain ⟨v, rest, rest', rfl, rfl⟩ := hm.exists_tip
    obtain ⟨w, name, rfl⟩ := exists_of_mem_children hx
    have hlt := hcov.index_lt (hst.child hx he)
    have hpass := passes_of_enters_standard he
    rcases @wrap_cases h ns w with ⟨m, hin, rfl⟩ | ⟨hwrap, hbare⟩
    · have hparens := hcov.reached_parens hst hst' hin hx
      refine ⟨_, ?_, .enclosed name hin hm⟩
      refine hparens.child_of_passes hcov.acyclic_enclosing ?_ ((passes_enclosing hlt).2 hpass)
      rw [children_wrapper hin]
      exact List.mem_singleton.2 rfl
    · refine ⟨_, hst'.child_of_passes hcov.acyclic_enclosing ?_ ((passes_enclosing hlt).2 hpass), .kept name hbare hm⟩
      exact (mem_children_enclosing (hcov.index_lt hst) rest rest').2 ⟨_, name, hx, by rw [hwrap]⟩

/-! ## Verdicts on the new tree -/

/-- A node that was there before needs no parentheses. -/
theorem decide_mirrored (hr : Reached .standard h [.node root] (.node n :: rest))
    (hm : Mirrors h ns (.node n :: rest) st') :
    ∃ r, (Path.ofStack st').decide (h.enclosing ns) false = .ok ⟨false, r⟩ := by
  have hn : Grammar.standard.isNode h (.node n) = true := passes_of_enters_standard hr.enters_self
  have hc := hcov.closed.of_below hr.tip_below
  have ha := hcov.acyclic.of_below hr.tip_below
  have hpattern := hcov.patternless n hr.tip_below
  cases hm with
  | root =>
    have hn' : Grammar.standard.isNode (h.enclosing ns) (.node n) = true := (isNode_enclosing (hc n .refl)).trans hn
    rw [Path.decide_node rfl hn', if_neg fun hp => hpattern (patternAssignment_of_enclosing hc hp),
      parent_of_ancestors (ancestors_root hn' none)]
    exact ⟨.root, rfl⟩
  | kept name hbare hm =>
    obtain ⟨r, hd⟩ := hcov.bare hr (hbare n rfl)
    refine hm.decide_kept hcov.isNode ?_ (hbare n rfl) hn ha hc hd
    intro m hv
    exact hcov.closed_of_values hr m (List.mem_cons_of_mem _ hv) m .refl
  | enclosed name hin hm => exact decide_enclosed hin hn hc hpattern

end Covers

theorem wrap_eq_wrapper_iff (hin : n ∈ ns) (hv : ∀ m, v = .node m → m.index < h.nodes.size) :
    h.wrap ns v = .node (h.wrapper ns n) ↔ v = .node n := by
  constructor
  · intro he
    rcases @wrap_cases h ns v with ⟨m, hm, rfl⟩ | ⟨hwrap, -⟩
    · rw [wrap_of_mem hm, Value.node.injEq] at he
      rw [wrapper_injective hin he]
    · have hlt := hv _ (hwrap.symm.trans he)
      have hge := @wrapper_index h ns n
      omega
  · rintro rfl
    exact wrap_of_mem hin

namespace Covers

variable (hcov : Covers h root ns)
include hcov

/-- New parentheses construct a call just if what they hold did. -/
theorem constructsCall_parens_iff (hr : Reached .standard h [.node root] (.node n :: name :: v :: st)) (hin : n ∈ ns)
    (hm : Mirrors h ns (v :: st) (v :: st')) :
    (Path.ofStack (.node (h.wrapper ns n) :: name :: v :: st')).ConstructsCall (h.enclosing ns) (h.wrapper ns n) ↔
      (Path.ofStack (.node n :: name :: v :: st)).ConstructsCall h n := by
  have hvalues : ∀ m, .node m ∈ Stack.values (v :: st) → h.Closed (.node m) := fun m hv =>
    hcov.closed_of_values hr m (List.mem_cons_of_mem _ hv)
  have hup := ancestors_cons (hcov.isNode n hin) name (v :: st) none
  have hup' := ancestors_cons (isNode_wrapper (h := h) hin) name (v :: st') none
  obtain ⟨hhead, hlt⟩ := (hm.wraps hcov.isNode (fun m hv => hvalues m hv m .refl) (some name)).head_node
  unfold Path.ConstructsCall
  rw [parent_of_ancestors hup', parent_of_ancestors hup, hhead]
  refine exists_congr fun q => and_congr_right fun hq => and_congr Iff.rfl ?_
  have hcq : h.Closed (.node q) := by
    cases has : Stack.ancestors .standard h (v :: st) (some name) with
    | nil => simp [has] at hq
    | cons a as => exact hvalues q (mem_values_of_ancestors (has ▸ List.mem_cons_self) (by simpa [has] using hq))
  rw [kind_enclosing (hlt q hq), get_enclosing (hlt q hq)]
  refine and_congr Iff.rfl (and_congr (wrap_eq_wrapper_iff hin ?_) ?_)
  · intro m hm
    exact hcq m (.single (member_of_get_object hm (.inl ⟨m, rfl⟩)))
  · exact exists_below_wrapper_iff hin (hcov.closed.of_below hr.tip_below) (by decide)

/-- The verdict on new parentheses. -/
theorem decide_parens (hr : Reached .standard (h.enclosing ns) [.node root] (.node (h.wrapper ns n) :: rest))
    (hin : n ∈ ns) : ∃ v, (Path.ofStack (.node (h.wrapper ns n) :: rest)).decide (h.enclosing ns) false = .ok v ∧
      (v.parens = true ↔ (Path.ofStack (.node (h.wrapper ns n) :: rest)).ConstructsCall (h.enclosing ns)
        (h.wrapper ns n)) := by
  have hmark : (h.enclosing ns).parenthesized (h.wrapper ns n) = false := by
    simp [parenthesized, node_wrapper hin, parenNode]
  exact decide_unmarked_parens rfl rfl (kind_wrapper hin) (hcov.acyclic_enclosing.of_below hr.tip_below) hmark

/-- Every node of the new tree has a verdict, and needs parentheses just if it is parentheses with a call in them and
the callee of a construction. -/
theorem exists_verdict (hr : Reached .standard (h.enclosing ns) [.node root] (.node n :: rest)) :
    ∃ v, (Path.ofStack (.node n :: rest)).decide (h.enclosing ns) false = .ok v ∧
      (v.parens = true ↔ (h.enclosing ns).kind (some n) = .parenthesized ∧
        (Path.ofStack (.node n :: rest)).ConstructsCall (h.enclosing ns) n) := by
  obtain ⟨st, hst, hi⟩ := hcov.exists_image hr
  cases hi with
  | mirror hm =>
    obtain ⟨v, rest₀, rest', rfl, he⟩ := hm.exists_tip
    obtain ⟨rfl, rfl⟩ := List.cons.inj he
    obtain ⟨r, hd⟩ := hcov.decide_mirrored hst hm
    refine ⟨_, hd, iff_of_false Bool.false_ne_true ?_⟩
    -- parentheses that the old tree had would need more, against `hd`
    rintro ⟨hk, hcall⟩
    obtain ⟨r', hd'⟩ := decide_of_constructsCall rfl rfl hk (hcov.acyclic_enclosing.of_below hr.tip_below) hcall
    rw [hd] at hd'
    cases hd'
  | parens name hin hm =>
    obtain ⟨v, hd, hiff⟩ := hcov.decide_parens hr hin
    exact ⟨v, hd, hiff.trans (and_iff_right (kind_wrapper hin)).symm⟩

end Covers

/-! ## The second round -/

/-- The stacks of the nodes of a tree. -/
def Tree.Heap.nodeStacks (h : Heap) (root : NodeId) : List (List Value) :=
  Stack.preorder .standard h (h.extent + 1) [.node root]

/-- The tip of a stack, if it needs parentheses. -/
def Stack.needing? (h : Heap) (st : List Value) : Option NodeId :=
  match st, (Path.ofStack st).decide h false with
  | .node n :: _, .ok ⟨true, _⟩ => some n
  | _, _ => none

/-- The nodes of a tree that need parentheses, at one of their places at least. -/
def Tree.Heap.needing (h : Heap) (root : NodeId) : List NodeId := (h.nodeStacks root).filterMap (Stack.needing? h)

/-- The tree where the nodes that need parentheses have some. -/
def Tree.Heap.explicit (h : Heap) (root : NodeId) : Heap := h.enclosing (h.needing root)

theorem mem_nodeStacks_iff : st ∈ h.nodeStacks root ↔
    Reached .standard h [.node root] st ∧ ∃ n rest, st = .node n :: rest := by
  have hends : Reached .standard h [.node root] st → (endsInNode st = true ↔ ∃ n rest, st = .node n :: rest) := by
    intro hr
    have he := hr.enters_self
    cases st with
    | nil => simp [endsInNode]
    | cons v rest =>
      have hpass := passes_of_enters_standard he
      cases v with
      | node n => simp [endsInNode]
      | list l => simp [endsInNode]
      | _ => cases hpass
  have hall : st ∈ h.nodeStacks root ↔ Reached .standard h [.node root] st ∧ endsInNode st = true :=
    mem_preorder_iff ⟨le_rfl, le_rfl⟩ (Ample.of_lt (Nat.lt_succ_self _) _)
  exact hall.trans (and_congr_right hends)

theorem needing?_eq_some_iff : Stack.needing? h st = some n ↔
    (∃ rest, st = .node n :: rest) ∧ ∃ r, (Path.ofStack st).decide h false = .ok ⟨true, r⟩ := by
  unfold Stack.needing?
  split
  · rename_i m rest r hd
    rw [hd]
    simp [eq_comm]
  · rename_i hno
    simp only [reduceCtorEq, false_iff, not_and, not_exists]
    rintro ⟨rest, rfl⟩ r hd
    exact hno n rest r rfl hd

theorem mem_needing_iff : n ∈ h.needing root ↔ ∃ rest r, Reached .standard h [.node root] (.node n :: rest) ∧
    (Path.ofStack (.node n :: rest)).decide h false = .ok ⟨true, r⟩ := by
  simp only [needing, List.mem_filterMap, needing?_eq_some_iff, mem_nodeStacks_iff]
  constructor
  · rintro ⟨_, ⟨hr, -⟩, ⟨rest, rfl⟩, r, hd⟩
    exact ⟨rest, r, hr, hd⟩
  · rintro ⟨rest, r, hr, hd⟩
    exact ⟨_, ⟨hr, n, rest, rfl⟩, ⟨rest, rfl⟩, r, hd⟩

/-- A round of parentheses changes something just if some node needs parentheses. -/
theorem explicit_eq_self_iff : h.explicit root = h ↔ h.needing root = [] := by
  constructor
  · intro he
    have hsize := congrArg (·.nodes.size) he
    simpa [explicit, enclosing] using hsize
  · intro hnil
    rw [explicit, hnil, enclosing_nil]

/-- Where a tree has verdicts, its nodes that need parentheses are such that the others need none. -/
theorem covers_needing (ha : h.Acyclic (.node root)) (hc : h.Closed (.node root))
    (hpattern : ∀ n, h.Below (.node root) (.node n) →
      ¬ (h.kind (some n) = .assignment ∧ h.kind (h.child? n "left") = .objectPattern))
    (hok : ∀ st ∈ h.nodeStacks root, ∃ v, (Path.ofStack st).decide h false = .ok v) :
    Covers h root (h.needing root) where
  acyclic := ha
  closed := hc
  patternless := hpattern
  isNode := by
    intro n hn
    obtain ⟨rest, r, hr, -⟩ := mem_needing_iff.1 hn
    exact passes_of_enters_standard hr.enters_self
  bare := by
    intro n rest hr hn
    obtain ⟨⟨b, r⟩, hd⟩ := hok _ (mem_nodeStacks_iff.2 ⟨hr, n, rest, rfl⟩)
    cases b with
    | false => exact ⟨r, hd⟩
    | true => exact absurd (mem_needing_iff.2 ⟨rest, r, hr, hd⟩) hn

/-- No node of the new tree needs parentheses just if no node that got some was the callee of a construction, with a
call at or below it. -/
theorem Covers.needing_eq_nil_iff (hcov : Covers h root ns) : (h.enclosing ns).needing root = [] ↔
    ∀ n ∈ ns, ∀ st ∈ h.nodeStacks root, st.head? = some (.node n) → ¬ (Path.ofStack st).ConstructsCall h n := by
  constructor
  · intro hnil n hin st hst hhead hcall
    obtain ⟨hr, m, rest, rfl⟩ := mem_nodeStacks_iff.1 hst
    obtain rfl : m = n := by simpa using hhead
    have hr₀ := hr
    cases hr with
    | start =>
      -- the root is nobody's callee
      obtain ⟨q, hq, -⟩ := hcall
      rw [parent_of_ancestors (ancestors_root (hcov.isNode root hin) none)] at hq
      cases hq
    | @child st₀ _ hst₀ hx he =>
      obtain ⟨st', hr', hm⟩ := hcov.exists_mirrored hst₀
      obtain ⟨v, rest₀, rest', rfl, rfl⟩ := hm.exists_tip
      obtain ⟨w, name, hw⟩ := exists_of_mem_children hx
      obtain ⟨rfl, rfl⟩ := List.cons.inj hw
      have hp := hcov.reached_parens hst₀ hr' hin hx
      obtain ⟨verdict, hd, hiff⟩ := hcov.decide_parens hp hin
      have hyes := hiff.2 ((hcov.constructsCall_parens_iff hr₀ hin hm).2 hcall)
      obtain ⟨b, r⟩ := verdict
      obtain rfl : b = true := hyes
      have hneed := mem_needing_iff.2 ⟨_, r, hp, hd⟩
      rw [hnil] at hneed
      cases hneed
  · intro hno
    refine List.eq_nil_iff_forall_not_mem.2 fun m hneed => ?_
    obtain ⟨rest', r, hr', hd⟩ := mem_needing_iff.1 hneed
    obtain ⟨st, hst, hi⟩ := hcov.exists_image hr'
    cases hi with
    | mirror hm =>
      obtain ⟨v, rest₀, rest', rfl, he⟩ := hm.exists_tip
      obtain ⟨rfl, rfl⟩ := List.cons.inj he
      obtain ⟨r', hd'⟩ := hcov.decide_mirrored hst hm
      rw [hd] at hd'
      cases hd'
    | parens name hin hm =>
      obtain ⟨verdict, hd', hiff⟩ := hcov.decide_parens hr' hin
      rw [hd] at hd'
      cases hd'
      have hcall := (hcov.constructsCall_parens_iff hst hin hm).1 (hiff.1 rfl)
      exact hno _ hin _ (mem_nodeStacks_iff.2 ⟨hst, _, _, rfl⟩) rfl hcall

/-- All nodes of an acyclic tree that need parentheses are put in some. If no assignment of the tree has an object
pattern on its left, and every node has a verdict, then every node of the new tree has a verdict. Parentheses are needed
there only around parentheses that are the callee of a construction and have a call in them. So a second round changes
nothing just if no node that needed parentheses was the callee of a construction and had a call at or below it. -/
theorem explicit_settles (ha : h.Acyclic (.node root)) (hc : h.Closed (.node root))
    (hpattern : ∀ n, h.Below (.node root) (.node n) →
      ¬ (h.kind (some n) = .assignment ∧ h.kind (h.child? n "left") = .objectPattern))
    (hok : ∀ st ∈ h.nodeStacks root, ∃ v, (Path.ofStack st).decide h false = .ok v) :
    (∀ st ∈ (h.explicit root).nodeStacks root, ∃ v, (Path.ofStack st).decide (h.explicit root) false = .ok v ∧
      (v.parens = true ↔ ∃ n, st.head? = some (.node n) ∧ (h.explicit root).kind (some n) = .parenthesized ∧
        (Path.ofStack st).ConstructsCall (h.explicit root) n)) ∧
    ((h.explicit root).explicit root = h.explicit root ↔ ∀ n ∈ h.needing root, ∀ st ∈ h.nodeStacks root,
      st.head? = some (.node n) → ¬ (Path.ofStack st).ConstructsCall h n) := by
  have hcov := covers_needing ha hc hpattern hok
  refine ⟨?_, explicit_eq_self_iff.trans hcov.needing_eq_nil_iff⟩
  intro st hst
  obtain ⟨hr, n, rest, rfl⟩ := mem_nodeStacks_iff.1 hst
  obtain ⟨v, hd, hiff⟩ := hcov.exists_verdict hr
  refine ⟨v, hd, hiff.trans ⟨fun hyes => ⟨n, rfl, hyes⟩, ?_⟩⟩
  rintro ⟨m, hm, hyes⟩
  obtain rfl : n = m := by simpa using hm
  exact hyes

/-- The statement `(function () {}) - (a - b)` and the construction `new (f())`, both without their parentheses. -/
def bareTrees : Heap where
  nodes := #[{ tag := "FunctionExpression" }, { tag := "Identifier", fields := .ofEntries [("name", .str "a")] },
    { tag := "Identifier", fields := .ofEntries [("name", .str "b")] },
    { tag := "BinaryExpression",
      fields := .ofEntries [("operator", .str "-"), ("left", .node ⟨1⟩), ("right", .node ⟨2⟩)] },
    { tag := "BinaryExpression",
      fields := .ofEntries [("operator", .str "-"), ("left", .node ⟨0⟩), ("right", .node ⟨3⟩)] },
    { tag := "ExpressionStatement", fields := .ofEntries [("expression", .node ⟨4⟩)] },
    { tag := "Identifier", fields := .ofEntries [("name", .str "f")] },
    { tag := "CallExpression", fields := .ofEntries [("callee", .node ⟨6⟩)] },
    { tag := "NewExpression", fields := .ofEntries [("callee", .node ⟨7⟩)] }]

/-- A round of parentheses encloses the function and the difference on the right, and the next one changes nothing. -/
theorem explicit_settles_bareTrees : bareTrees.Acyclic (.node ⟨5⟩) ∧ bareTrees.needing ⟨5⟩ = [⟨0⟩, ⟨3⟩] ∧
    (bareTrees.explicit ⟨5⟩).explicit ⟨5⟩ = bareTrees.explicit ⟨5⟩ := by
  have ha := Heap.acyclic_of_measure (h := bareTrees) nodePlace (by decide) (by decide) (.node ⟨5⟩)
  have hc : bareTrees.Closed (.node ⟨5⟩) := closed_of_members (by decide) (by decide) (by decide)
  have hkinds : ∀ i < bareTrees.nodes.size, bareTrees.kind (some ⟨i⟩) ≠ .assignment := by decide
  have hcallees : ∀ i < bareTrees.nodes.size, bareTrees.get ⟨i⟩ "callee" ≠ .node ⟨0⟩ ∧
      bareTrees.get ⟨i⟩ "callee" ≠ .node ⟨3⟩ := by decide
  have hneed : bareTrees.needing ⟨5⟩ = [⟨0⟩, ⟨3⟩] := by decide +kernel
  have hok : ∀ st ∈ bareTrees.nodeStacks ⟨5⟩, ((Path.ofStack st).decide bareTrees false).isOk = true := by
    decide +kernel
  refine ⟨ha, hneed, (explicit_settles ha hc ?_ ?_).2.2 ?_⟩
  · intro n hn hp
    exact hkinds n.index (hc n hn) hp.1
  · intro st hst
    have hverdict := hok st hst
    cases hd : (Path.ofStack st).decide bareTrees false with
    | ok v => exact ⟨v, rfl⟩
    | error x =>
      rw [hd] at hverdict
      cases hverdict
  · rintro n hn st hst hhead ⟨q, -, -, -, hget, -⟩
    have hq := hcallees q.index (node_index_lt (member_of_get_object hget (.inl ⟨n, rfl⟩)))
    rw [hneed] at hn
    rcases List.mem_pair.1 hn with rfl | rfl
    · exact hq.1 hget
    · exact hq.2 hget

/-- A round of parentheses encloses the call, and the next one encloses its parentheses. -/
theorem explicit_again_construction : bareTrees.needing ⟨8⟩ = [⟨7⟩] ∧
    (bareTrees.explicit ⟨8⟩).needing ⟨8⟩ = [⟨9⟩] ∧
    (bareTrees.explicit ⟨8⟩).explicit ⟨8⟩ ≠ bareTrees.explicit ⟨8⟩ := by
  have hagain : (bareTrees.explicit ⟨8⟩).needing ⟨8⟩ = [⟨9⟩] := by decide +kernel
  refine ⟨by decide, hagain, ?_⟩
  rw [ne_eq, explicit_eq_self_iff, hagain]
  decide

end Bracketing
