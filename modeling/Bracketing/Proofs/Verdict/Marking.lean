import Bracketing.Proofs.Report.Parens
import Bracketing.Proofs.Tree.Plain
import Bracketing.Proofs.Tree.Remarks

/-!
# Recording verdicts in the tree

A verdict may be recorded in the tree as if the source had had the parentheses. The record is read by one rule only, which
comes after all rules that say no to every node they apply to:

- `decide_alike`: a verdict depends on remarks only through the record at the node itself;
- `decide_recorded`: a node that needs parentheses still does once that is recorded, for both kinds of callers;
- `visits_alike`: a walk visits the same stacks whatever is recorded;
- `Reached.eq_of_tip`: in a tree without shared nodes it comes to every node along one stack;
- `marking_keeps_verdicts`: so recording verdicts changes none;
- `marking_changes_commonRemarks`: but it may if a node that is recorded has its remarks in common with one that is not.
-/

namespace Bracketing

open Bracketing.Tree Stack

variable {g : Grammar} {h h' : Heap} {p : Path} {s : Site} {n : NodeId} {k : String}

/-! ## Rules that read no remarks -/

namespace Tree.Heap.Alike

theorem expectEdge (ha : h.Alike h') (hk : k ≠ "extra") (q c : NodeId) :
    Bracketing.expectEdge h' q k c = Bracketing.expectEdge h q k c := by
  simp only [Bracketing.expectEdge, ha.get hk, Invariant.notUnder, ha.tag, ha.start]

theorem containsCall (ha : h.Alike h') (n : NodeId) : Bracketing.containsCall h' n = Bracketing.containsCall h n := by
  simp only [Bracketing.containsCall, ha.kind, ha.contains]

theorem leftmostSlot? (ha : h.Alike h') (n : NodeId) :
    Bracketing.leftmostSlot? h' n = Bracketing.leftmostSlot? h n := by
  simp only [Bracketing.leftmostSlot?, ha.kind, ha.flagAt, ne_eq, String.reduceEq, not_false_eq_true]

/-- No slot that is printed first has the name of the remarks. -/
theorem leftmostSlot_ne (hk : Bracketing.leftmostSlot? h n = some k) : k ≠ "extra" := by
  unfold Bracketing.leftmostSlot? at hk
  rintro rfl
  split at hk <;> simp at hk

theorem passage (ha : h.Alike h') (c : NodeId) (name : Value) (q : NodeId) (next : Option Value) :
    Bracketing.passage h' c name q next = Bracketing.passage h c name q next := by
  unfold Bracketing.passage
  simp only [ha.kind, ha.expectEdge, ha.elements, ha.leftmostSlot?, ne_eq, String.reduceEq, not_false_eq_true,
    Invariant.notFirst, ha.tag, ha.start]
  cases hs : Bracketing.leftmostSlot? h q with
  | none => rfl
  | some slot => simp only [ha.expectEdge (leftmostSlot_ne hs)]

theorem leadsFrom (ha : h.Alike h') (b : Bool) : ∀ as : List Ancestor,
    Bracketing.leadsFrom h' b as = Bracketing.leadsFrom h b as
  | [] => rfl
  | [_] => rfl
  | child :: parent :: rest => by
    have hrest := leadsFrom ha b (parent :: rest)
    unfold Bracketing.leadsFrom
    simp only [ha.passage, hrest]

theorem isLetBracket (ha : h.Alike h') (n : NodeId) : Bracketing.isLetBracket h' n = Bracketing.isLetBracket h n := by
  simp only [Bracketing.isLetBracket, ha.kind, ha.flagAt, ha.child?, ha.textAt, ne_eq, String.reduceEq,
    not_false_eq_true]

theorem mayLead (ha : h.Alike h') (x : Option NodeId) : Bracketing.mayLead h' x = Bracketing.mayLead h x := by
  cases x with
  | none => rfl
  | some n => simp only [Bracketing.mayLead, ha.kind, ha.isLetBracket]

end Tree.Heap.Alike

/-! ## Sites -/

/-- The same nodes and name in another heap. -/
def Site.on (s : Site) (h : Heap) : Site := { s with heap := h }

namespace Site

theorem isUnder_on : (s.on h').isUnder k = s.isUnder k := rfl

variable (ha : s.heap.Alike h')

include ha

theorem kind_on : (s.on h').kind = s.kind := ha.kind _

theorem parentKind_on : (s.on h').parentKind = s.parentKind := ha.kind _

theorem fills_on (hk : k ≠ "extra") : (s.on h').fills k = s.fills k := by
  show (s.isUnder k && decide (h'.get s.parent k = .node s.node)) = _
  rw [ha.get hk]
  rfl

theorem isCallee_on : (s.on h').isCallee = s.isCallee := by
  simp only [isCallee, parentKind_on ha, fills_on ha (show "callee" ≠ "extra" by decide)]

theorem isObject_on : (s.on h').isObject = s.isObject := by
  simp only [isObject, parentKind_on ha, fills_on ha (show "object" ≠ "extra" by decide)]

theorem isObjectType_on : (s.on h').isObjectType = s.isObjectType := by
  simp only [isObjectType, isUnder_on, parentKind_on ha]

theorem operator_on : (s.on h').operator = s.operator := ha.textAt (by decide)

theorem parentOperator_on : (s.on h').parentOperator = s.parentOperator := ha.textAt (by decide)

theorem binaryInBinary_on : (s.on h').binaryInBinary = s.binaryInBinary := by
  unfold binaryInBinary
  simp only [isUnder_on, operator_on ha, parentOperator_on ha]
  simp only [on, ha.expectEdge, ne_eq, String.reduceEq, not_false_eq_true]

theorem byKind_on (grandparent : Option NodeId) : (s.on h').byKind grandparent = s.byKind grandparent := by
  unfold byKind
  simp only [isUnder_on, kind_on ha, parentKind_on ha, fills_on ha, isCallee_on ha, isObject_on ha, isObjectType_on ha,
    parentOperator_on ha, binaryInBinary_on ha, ne_eq, String.reduceEq, not_false_eq_true]
  simp only [on, ha.get, ha.child?, ha.kind, ne_eq, String.reduceEq, not_false_eq_true]

end Site

/-! ## Verdicts -/

section Verdicts

variable {b : Bool}

theorem Tree.Grammar.Agrees.asNode (hg : g.Agrees h h') (v : Value) : g.asNode h' v = g.asNode h v := by
  simp only [Grammar.asNode, hg.isNode]

theorem ancestors_alike (hg : g.Agrees h h') : ∀ (st : List Value) (next : Option Value),
    Stack.ancestors g h' st next = Stack.ancestors g h st next
  | [], _ => rfl
  | [_], _ => by simp only [Stack.ancestors, hg.asNode]
  | _ :: name :: rest, _ => by simp only [Stack.ancestors, hg.asNode, ancestors_alike hg rest (some name)]

theorem node_alike (hg : p.grammar.Agrees h h') (i : Int64) : p.node h' i = p.node h i := by
  have hasNode : p.grammar.asNode h' = p.grammar.asNode h := funext hg.asNode
  simp only [Path.node_eq_lineage, Path.lineage, hasNode]

theorem parent_alike (hg : p.grammar.Agrees h h') (i : Int64) : p.parent h' i = p.parent h i := node_alike hg (i + 1)

theorem leads_alike (ha : h.Alike h') (hg : p.grammar.Agrees h h') (b : Bool) : p.leads h' b = p.leads h b := by
  simp only [Path.leads_eq, ancestors_alike hg, ha.leadsFrom]

theorem decideByPlace_on (ha : s.heap.Alike h') (hg : p.grammar.Agrees s.heap h') :
    p.decideByPlace b (s.on h') = p.decideByPlace b s := by
  unfold Path.decideByPlace
  simp only [Site.kind_on ha, Site.parentKind_on ha, Site.fills_on ha (show "callee" ≠ "extra" by decide)]
  simp only [Site.on, ha.containsCall, ha.mayLead, leads_alike ha hg]

/-- Under a parent, a verdict reads the remarks of the node only. -/
theorem decideUnder_on (ha : s.heap.Alike h') (hg : p.grammar.Agrees s.heap h')
    (hm : h'.parenthesized s.node = s.heap.parenthesized s.node) :
    p.decideUnder b (s.on h') = p.decideUnder b s := by
  have hst : p.grammar.isStatement (s.on h').heap (s.on h').node = p.grammar.isStatement s.heap s.node :=
    hg.isStatement s.node
  have hmark : (s.on h').heap.parenthesized (s.on h').node = s.heap.parenthesized s.node := hm
  have hparent : p.parent (s.on h').heap 1 = p.parent s.heap 1 := parent_alike hg 1
  have htag : ((s.on h').heap.node (s.on h').node).tag = (s.heap.node s.node).tag := ha.tag s.node
  unfold Path.decideUnder
  simp only [hst, hmark, hparent, htag, Site.kind_on ha, Site.parentKind_on ha, Site.byKind_on ha,
    decideByPlace_on ha hg]

/-- A verdict depends on remarks only through the record at the node itself. -/
theorem decide_alike (ha : h.Alike h') (hg : p.grammar.Agrees h h')
    (hm : ∀ n rest, p.stack = .node n :: rest → h'.parenthesized n = h.parenthesized n) :
    p.decide h' b = p.decide h b := by
  cases hs : p.stack with
  | nil => rw [Path.decide_nil hs, Path.decide_nil hs]
  | cons tip rest =>
    have hv : p.value = .ok tip := by simp [Path.value, hs]
    unfold Path.decide
    rw [hv, node_alike hg, parent_alike hg]
    cases p.node h with
    | none => rfl
    | some n =>
      by_cases htip : tip = .node n
      · subst htip
        have hunder : ∀ q, p.decideUnder b ⟨h', n, q, p.name⟩ = p.decideUnder b ⟨h, n, q, p.name⟩ :=
          fun q => decideUnder_on (s := ⟨h, n, q, p.name⟩) ha hg (hm n rest hs)
        have hleft : h'.child? n "left" = h.child? n "left" := ha.child? (by decide)
        simp only [hunder, hleft, ha.kind]
      · simp only [bind, Except.bind, ne_eq, htip, not_false_eq_true, if_true]

/-- A rule that says no has not been applied where the verdict is yes. -/
theorem not_of_ite_no {c : Prop} [Decidable c] {r : Rule} {x : Except Stop Verdict} {v : Verdict}
    (hv : (if c then .ok ⟨false, r⟩ else x) = .ok v) (hyes : v.parens = true) : ¬ c ∧ x = .ok v := by
  by_cases hc : c
  · rw [if_pos hc] at hv
    cases hv
    cases hyes
  · rw [if_neg hc] at hv
    exact ⟨hc, hv⟩

/-- A node that needs parentheses under its parent gets them by the record, if there is one. -/
theorem decideUnder_recorded (ha : s.heap.Alike h') (hg : p.grammar.Agrees s.heap h') {v : Verdict}
    (hv : p.decideUnder false s = .ok v) (hyes : v.parens = true) (hm : h'.parenthesized s.node = true) (b : Bool) :
    p.decideUnder b (s.on h') = .ok ⟨true, .sourceParens⟩ := by
  -- the rules that come before the record all say no
  obtain ⟨hst, hv⟩ := not_of_ite_no hv hyes
  obtain ⟨hid, hv⟩ := not_of_ite_no hv hyes
  obtain ⟨hpar, -⟩ := not_of_ite_no hv hyes
  rw [← hg.isStatement] at hst
  rw [← Site.kind_on ha] at hid
  rw [← Site.parentKind_on ha] at hpar
  exact (if_neg hst).trans ((if_neg hid).trans ((if_neg hpar).trans (if_pos hm)))

/-- Where the tip needs parentheses, the grammar takes it for a node and has asked the rules for nodes. -/
theorem decide_of_parens {rest : List Value} (hs : p.stack = .node n :: rest) {v : Verdict} (hv : p.decide h b = .ok v)
    (hyes : v.parens = true) : p.grammar.isNode h (.node n) = true ∧
      (if h.kind (some n) = .assignment ∧ h.kind (h.child? n "left") = .objectPattern then
        .ok ⟨true, .objectPatternAssignment⟩
      else
        match p.parent h with
        | none => .ok ⟨false, .root⟩
        | some q => p.decideUnder b ⟨h, n, q, p.name⟩) = Except.ok v := by
  obtain hnil | ⟨m, rest', hs', hn⟩ | hnone := p.decide_cases h
  · rw [hnil] at hs
    cases hs
  · obtain ⟨hmn, -⟩ := List.cons.inj (hs.symm.trans hs')
    cases hmn
    rw [Path.decide_node hs hn] at hv
    exact ⟨hn, hv⟩
  · rw [hnone] at hv
    cases hv
    cases hyes

/-- A node that needs parentheses still does once that is recorded. -/
theorem decide_recorded (ha : h.Alike h') (hg : p.grammar.Agrees h h') {rest : List Value}
    (hs : p.stack = .node n :: rest) {v : Verdict} (hv : p.decide h false = .ok v) (hyes : v.parens = true)
    (hm : h'.parenthesized n = true) (b : Bool) : ∃ r, p.decide h' b = .ok ⟨true, r⟩ := by
  obtain ⟨hn, hv⟩ := decide_of_parens hs hv hyes
  rw [Path.decide_node hs ((hg.isNode _).trans hn), ha.kind, ha.kind,
    ha.child? (show "left" ≠ "extra" by decide), parent_alike hg]
  by_cases hpat : h.kind (some n) = .assignment ∧ h.kind (h.child? n "left") = .objectPattern
  · exact ⟨_, if_pos hpat⟩
  · rw [if_neg hpat] at hv ⊢
    cases hq : p.parent h with
    | none =>
      rw [hq] at hv
      cases hv
      cases hyes
    | some q =>
      rw [hq] at hv
      exact ⟨_, decideUnder_recorded (s := ⟨h, n, q, p.name⟩) ha hg hv hyes hm b⟩

theorem kind_empty (he : h.node n = {}) : h.kind (some n) = .other := by
  rw [Heap.kind, he]
  decide

theorem containsCall_empty (he : h.node n = {}) : containsCall h n = .ok false := by
  simp [containsCall, Heap.contains, Heap.search, Heap.inspectWithin, he, kind_empty he]

/-- A reference that leads nowhere never needs parentheses under its parent. -/
theorem decideUnder_empty (he : s.heap.node s.node = {}) {v : Verdict} (hv : p.decideUnder b s = .ok v) :
    v.parens ≠ true := by
  intro hyes
  have hother : s.kind = .other := kind_empty he
  have hextra : (s.heap.node s.node).extra = none := by rw [he]
  have hlead : mayLead s.heap (some s.node) = true := by simp [mayLead, isLetBracket, kind_empty he]
  have hkind : s.byKind (p.parent s.heap 1) = .ok none := by
    unfold Site.byKind
    rw [hother]
  obtain ⟨-, hv⟩ := not_of_ite_no hv hyes
  obtain ⟨-, hv⟩ := not_of_ite_no hv hyes
  obtain ⟨-, hv⟩ := not_of_ite_no hv hyes
  rw [Heap.parenthesized_of_none hextra, if_neg (by simp), hkind] at hv
  have hplace : p.decideByPlace b s = .ok v := hv
  unfold Path.decideByPlace at hplace
  rw [containsCall_empty he, hlead] at hplace
  split at hplace
  · cases hplace
    cases hyes
  · rw [if_neg (by simp)] at hplace
    cases hplace
    cases hyes

/-- Where parentheses are needed there is a node. -/
theorem index_lt_of_parens {rest : List Value} (hs : p.stack = .node n :: rest) {v : Verdict}
    (hv : p.decide h b = .ok v) (hyes : v.parens = true) : n.index < h.nodes.size := by
  by_contra hlt
  have he : h.node n = {} := by simp [Heap.node, Array.getD, hlt]
  obtain ⟨hn, hv⟩ := decide_of_parens hs hv hyes
  rw [if_neg (by simp [kind_empty he])] at hv
  cases hq : p.parent h with
  | none =>
    rw [hq] at hv
    cases hv
    cases hyes
  | some q =>
    rw [hq] at hv
    exact decideUnder_empty he hv hyes

end Verdicts

/-! ## Walks -/

theorem branches_extra (h : Heap) (n : NodeId) : Value.branches (h.get n "extra") = false := by
  cases hm : (h.node n).extra <;> simp [Heap.get, hm, Value.branches]

theorem children_alike (ha : h.Alike h') (st : List Value) : children h' st = children h st := by
  cases st with
  | nil => rfl
  | cons v rest =>
    cases v with
    | node n =>
      have hbranches : ∀ k, Value.branches (h'.get n k) = Value.branches (h.get n k) := by
        intro k
        by_cases hk : k = "extra"
        · rw [hk, branches_extra, branches_extra]
        · rw [ha.get hk]
      unfold children
      simp only [hbranches, ha.fields]
      apply List.map_congr_left
      intro k hk
      have hne : k ≠ "extra" := by
        rintro rfl
        rw [List.mem_filter, branches_extra] at hk
        cases hk.2
      simp only [atField, ha.get hne]
    | list l =>
      have helement : ∀ i, elementAt h' l i = elementAt h l i := by
        intro i
        simp only [elementAt, ha.list]
      have hplace : atIndex h' (.list l :: rest) l = atIndex h (.list l :: rest) l := by
        funext i
        simp only [atIndex, helement]
      simp only [children, helement, hplace, ha.list]
    | _ => rfl

theorem enters_alike (ha : h.Alike h') (hg : g.Agrees h h') (st : List Value) : enters g h' st = enters g h st := by
  simp only [enters, ha.same, hg.isNode]

theorem preorder_alike (ha : h.Alike h') (hg : g.Agrees h h') : ∀ (depth : Nat) (st : List Value),
    preorder g h' depth st = preorder g h depth st
  | 0, _ => rfl
  | depth + 1, st => by
    have hbelow : preorder g h' depth = preorder g h depth := funext (preorder_alike ha hg depth)
    simp only [preorder, enters_alike ha hg, children_alike ha, hbelow]

/-- A walk visits the same stacks whatever is recorded. -/
theorem visits_alike (ha : h.Alike h') (hg : p.grammar.Agrees h h') : p.visits h' = p.visits h := by
  simp only [Path.visits, ha.extent, preorder_alike ha hg]

/-! ## Trees without shared nodes -/

section Unshared

variable {v w : Value} {rest x y : List Value}

/-- A field that is made for nodes goes by a name of its own. -/
theorem get_of_branches (hb : Value.branches (h.get n k) = true) : h.get n k = (h.node n).fields.get k := by
  unfold Heap.get at hb ⊢
  split_ifs at hb ⊢ with ht hl hx
  · cases hb
  · cases hloc : (h.node n).location <;> simp [hloc, Value.branches] at hb
  · cases hm : (h.node n).extra <;> simp [hm, Value.branches] at hb
  · rfl

/-- No node is below the tips of both stacks. -/
def TipsApart (h : Heap) (x y : List Value) : Prop := ∀ a b, x.head? = some a → y.head? = some b → h.Apart a b

instance : Std.Symm (TipsApart h) where
  symm _ _ hxy a b ha hb m hma hmb := hxy b a hb ha m hmb hma

/-- Members that are apart are the tips of children that are. -/
theorem apart_children (hd : (h.members v).Pairwise h.Apart) : (children h (v :: rest)).Pairwise (TipsApart h) := by
  cases v with
  | node n =>
    rw [Heap.members, ← Record.map_get_keys, List.pairwise_map] at hd
    unfold children
    rw [List.pairwise_map]
    apply (hd.filter _).imp_of_mem
    intro k k' hk hk' hapart a b ha hb
    cases ha
    cases hb
    rw [get_of_branches (List.mem_filter.1 hk).2, get_of_branches (List.mem_filter.1 hk').2]
    exact hapart
  | list l =>
    rw [Heap.members, List.pairwise_iff_getElem] at hd
    unfold children
    rw [List.pairwise_map]
    apply (List.pairwise_lt_range.filter _).imp_of_mem
    intro i j hi hj hij a b ha hb
    cases ha
    cases hb
    have hi := List.mem_range.1 (List.mem_filter.1 hi).1
    have hj := List.mem_range.1 (List.mem_filter.1 hj).1
    simp only [elementAt, List.getElem?_eq_getElem hi, List.getElem?_eq_getElem hj, Option.getD_some]
    exact hd i j hi hj hij
  | _ => exact .nil

/-- What is reached has a tip at or below the one it is reached from. -/
theorem Reached.exists_below (hx : Reached g h (v :: rest) x) : ∃ w st, x = w :: st ∧ h.Below v w := by
  induction hx with
  | start => exact ⟨v, rest, rfl, .refl⟩
  | child _ hx _ ih =>
    obtain ⟨u, st, rfl, hu⟩ := ih
    obtain ⟨name, rfl, hm⟩ := resolve_of_mem_children hx
    exact ⟨_, _, rfl, hu.tail hm⟩

/-- A node that is reached through a child is below its tip, which is a member. -/
theorem Reached.below_child {st : List Value} (hst : st ∈ children h (v :: rest)) (hx : Reached g h st (.node n :: x)) :
    ∃ w, st.head? = some w ∧ w ∈ h.members v ∧ h.Below w (.node n) := by
  obtain ⟨name, rfl, hm⟩ := resolve_of_mem_children hst
  obtain ⟨w, st, he, hw⟩ := hx.exists_below
  obtain ⟨rfl, -⟩ := List.cons.inj he
  exact ⟨_, rfl, hm, hw⟩

/-- In a tree without shared nodes, every node is reached along one stack. -/
theorem Reached.eq_of_tip (hu : h.Unshared v) : ∀ {rest x y : List Value}, Reached g h (v :: rest) (.node n :: x) →
    Reached g h (v :: rest) (.node n :: y) → x = y := by
  induction hu with
  | @intro v ha hd hm ih =>
    intro rest x y hx hy
    -- a node that is the start and below a child would be below a member of its own
    have hstart : ∀ {z z' st : List Value}, .node n :: z = v :: rest → st ∈ children h (v :: rest) →
        ¬ Reached g h st (.node n :: z') := by
      intro z z' st he hst hz
      obtain ⟨w, -, hw, hbelow⟩ := hz.below_child hst
      exact ha w hw ((List.cons.inj he).1 ▸ hbelow)
    rcases hx.eq_or_child with hxs | ⟨st, hst, hx⟩
    · rcases hy.eq_or_child with hys | ⟨st, hst, hy⟩
      · exact (List.cons.inj (hxs.trans hys.symm)).2
      · exact absurd hy (hstart hxs hst)
    · rcases hy.eq_or_child with hys | ⟨st', hst', hy⟩
      · exact absurd hx (hstart hys hst)
      · obtain ⟨w, hw, hmem, hbelow⟩ := hx.below_child hst
        obtain ⟨w', hw', -, hbelow'⟩ := hy.below_child hst'
        by_cases he : st = st'
        · subst he
          obtain ⟨tail, rfl⟩ := List.head?_eq_some_iff.1 hw
          exact ih w hmem hx hy
        · have hapart : TipsApart h st st' := (apart_children hd).forall hst hst' he
          exact absurd hbelow' (hapart w w' hw hw' n hbelow)

end Unshared

/-! ## Findings -/

/-- What a walk from the path finds out: the stacks that it visits, and whether parentheses are needed there. -/
def Path.findings (p : Path) (h : Heap) (inExpression : Bool) : Except Stop (List (List Value × Bool)) :=
  Tour.report h p fun q h => (q.decide h inExpression).map fun v => some (q.stack, v.parens)

section Findings

variable {b : Bool} {rows : List (List Value × Bool)}

theorem findings_of_ok (hs : p.stack ≠ []) {f : List Value → Bool}
    (hf : ∀ st ∈ p.visits h, ∃ r, (p.withStack st).decide h b = .ok ⟨f st, r⟩) :
    p.findings h b = .ok ((p.visits h).map fun st => (st, f st)) := by
  rw [← List.filterMap_eq_map]
  apply Tour.report_of_ok hs
  intro st hst
  obtain ⟨r, hr⟩ := hf st hst
  rw [hr]
  rfl

theorem exists_of_findings (hs : p.stack ≠ []) (hr : p.findings h b = .ok rows) :
    ∃ f : List Value → Bool, (∀ st ∈ p.visits h, ∃ r, (p.withStack st).decide h b = .ok ⟨f st, r⟩) ∧
      rows = (p.visits h).map fun st => (st, f st) := by
  have hok : ∀ st ∈ p.visits h, ∃ a, ∃ r, (p.withStack st).decide h b = .ok ⟨a, r⟩ := by
    obtain ⟨f, hf, -⟩ := Tour.exists_of_report hs hr
    intro st hst
    have hst := hf st hst
    cases hd : (p.withStack st).decide h b with
    | error x => rw [hd] at hst; cases hst
    | ok v => exact ⟨v.parens, v.rule, rfl⟩
  choose! f hf using hok
  rw [findings_of_ok hs hf] at hr
  exact ⟨f, hf, (Except.ok.inj hr).symm⟩

end Findings

/-! ## Recording what was found -/

/-- The tip is one of the nodes. -/
def Stack.tipAmong (ns : List NodeId) (st : List Value) : Bool := ns.any fun n => st.head? = some (.node n)

theorem Stack.tipAmong_eq_true_iff {ns : List NodeId} {st : List Value} :
    tipAmong ns st = true ↔ ∃ n ∈ ns, ∃ rest, st = .node n :: rest := by
  simp [tipAmong, List.head?_eq_some_iff]

section Recording

variable {root : Value} {o : Path.Options} {ns : List NodeId} {needs : List Value → Bool} {b : Bool} {st : List Value}

/-- A walk from the root finds out which stacks need parentheses, and the nodes are the tips of some that do. -/
structure Found (h : Heap) (p : Path) (needs : List Value → Bool) (ns : List NodeId) : Prop where
  decide : ∀ st ∈ p.visits h, ∃ r, (p.withStack st).decide h false = .ok ⟨needs st, r⟩
  tips : ∀ n ∈ ns, ∃ rest, .node n :: rest ∈ p.visits h ∧ needs (.node n :: rest) = true

namespace Found

/-- The nodes are there, below the root. -/
theorem below (hf : Found h (.new root o) needs ns) (hn : n ∈ ns) :
    h.Below root (.node n) ∧ n ∈ ns ∧ n.index < h.nodes.size := by
  obtain ⟨rest, hst, hyes⟩ := hf.tips n hn
  obtain ⟨r, hr⟩ := hf.decide _ hst
  obtain ⟨w, st, he, hw⟩ := (Path.mem_visits_iff.1 hst).1.exists_below
  obtain ⟨rfl, -⟩ := List.cons.inj he
  exact ⟨hw, hn, index_lt_of_parens rfl hr hyes⟩

/-- Without shared nodes, parentheses are needed wherever the tip is one of the nodes. -/
theorem needs_of_tipAmong (hf : Found h (.new root o) needs ns) (hu : h.Unshared root)
    (hst : st ∈ (Path.new root o).visits h) (ht : tipAmong ns st = true) : needs st = true := by
  obtain ⟨n, hn, rest, rfl⟩ := tipAmong_eq_true_iff.1 ht
  obtain ⟨rest', hst', hyes⟩ := hf.tips n hn
  have hsame : rest = rest' := Reached.eq_of_tip hu (Path.mem_visits_iff.1 hst).1 (Path.mem_visits_iff.1 hst').1
  rw [hsame]
  exact hyes

/-- Once the nodes are recorded, parentheses are needed where they were and at the nodes. -/
theorem decide_marking (hf : Found h (.new root o) needs ns) (hu : h.Unshared root)
    (hr : h.RemarksApart (fun n => h.Below root (.node n)) (· ∈ ns))
    (hg : (Path.new root o).grammar.Agrees h (h.marking ns)) (hst : st ∈ (Path.new root o).visits h) {yes : Bool}
    {r : Rule} (hold : ((Path.new root o).withStack st).decide h b = .ok ⟨yes, r⟩) :
    ∃ r, ((Path.new root o).withStack st).decide (h.marking ns) b = .ok ⟨yes || tipAmong ns st, r⟩ := by
  have ha := h.alike_marking ns
  have hg : ((Path.new root o).withStack st).grammar.Agrees h (h.marking ns) := hg
  have hns : ∀ n ∈ ns, h.Below root (.node n) ∧ n ∈ ns ∧ n.index < h.nodes.size := fun n => hf.below
  cases ht : tipAmong ns st with
  | true =>
    obtain ⟨first, hfirst⟩ := hf.decide st hst
    have hneeds := hf.needs_of_tipAmong hu hst ht
    obtain ⟨n, hn, rest, rfl⟩ := tipAmong_eq_true_iff.1 ht
    rw [Bool.or_true]
    exact decide_recorded ha hg rfl hfirst hneeds (hr.marking_of_mem hns hn) b
  | false =>
    refine ⟨r, ?_⟩
    rw [Bool.or_false, ← hold]
    apply decide_alike ha hg
    intro n rest hs
    obtain ⟨w, st', he, hw⟩ := (Path.mem_visits_iff.1 hst).1.exists_below
    have hs : st = .node n :: rest := hs
    obtain ⟨rfl, -⟩ := List.cons.inj (he.symm.trans hs)
    apply hr.marking_of_not hns hw
    intro hn
    rw [tipAmong_eq_true_iff.2 ⟨n, hn, rest, hs⟩] at ht
    cases ht

/-- What either kind of caller finds once the nodes are recorded, from what it found before. -/
theorem findings_marking (hf : Found h (.new root o) needs ns) (hu : h.Unshared root)
    (hr : h.RemarksApart (fun n => h.Below root (.node n)) (· ∈ ns))
    (hg : (Path.new root o).grammar.Agrees h (h.marking ns)) {f : List Value → Bool}
    (hold : ∀ st ∈ (Path.new root o).visits h, ∃ r, ((Path.new root o).withStack st).decide h b = .ok ⟨f st, r⟩) :
    (Path.new root o).findings (h.marking ns) b =
      .ok (((Path.new root o).visits h).map fun st => (st, f st || tipAmong ns st)) := by
  have hvisits := visits_alike (h.alike_marking ns) hg
  rw [← hvisits]
  apply findings_of_ok (Path.stack_new_ne_nil root o)
  intro st hst
  rw [hvisits] at hst
  obtain ⟨r, hst'⟩ := hold st hst
  exact hf.decide_marking hu hr hg hst hst'

/-- A caller that knows the node to be inside an expression is answered too. -/
theorem exists_inExpression (hf : Found h p needs ns) : ∃ inside : List Value → Bool,
    ∀ st ∈ p.visits h, ∃ r, (p.withStack st).decide h true = .ok ⟨inside st, r⟩ := by
  have hok : ∀ st ∈ p.visits h, ∃ yes, ∃ r, (p.withStack st).decide h true = .ok ⟨yes, r⟩ := by
    intro st hst
    obtain ⟨r, hr⟩ := hf.decide st hst
    obtain ⟨w, hw, -⟩ := decide_inExpression hr
    exact ⟨w.parens, w.rule, hw⟩
  choose! inside hinside using hok
  exact ⟨inside, hinside⟩

end Found

/-- Recording, for nodes that need parentheses, that the source had them changes no verdict: at every node of the walk
the same is found as before. A caller that knows the node to be inside an expression is told of parentheses where it was
before and at the nodes recorded. The nodes are all that were found, or some of them. A record is read wherever the
remarks it stands in are, so they must not be common to a node that is recorded and one that is not. -/
theorem marking_keeps_verdicts {rows : List (List Value × Bool)} (hu : h.Unshared root)
    (hr : h.RemarksApart (fun n => h.Below root (.node n)) (· ∈ ns))
    (hg : (Path.new root o).grammar.Agrees h (h.marking ns)) (hf : (Path.new root o).findings h false = .ok rows)
    (hns : ∀ n ∈ ns, ∃ rest, (.node n :: rest, true) ∈ rows) :
    ∃ before, (Path.new root o).findings h true = .ok before ∧
      (Path.new root o).findings (h.marking ns) false = .ok rows ∧
      (Path.new root o).findings (h.marking ns) true =
        .ok (before.map fun row => (row.1, row.2 || tipAmong ns row.1)) := by
  have hs := Path.stack_new_ne_nil root o
  obtain ⟨needs, hdecide, rfl⟩ := exists_of_findings hs hf
  have hfound : Found h (.new root o) needs ns := by
    refine ⟨hdecide, ?_⟩
    intro n hn
    obtain ⟨rest, hmem⟩ := hns n hn
    obtain ⟨st, hst, he⟩ := List.mem_map.1 hmem
    obtain ⟨rfl, hyes⟩ := Prod.mk.inj he
    exact ⟨rest, hst, hyes⟩
  obtain ⟨inside, hinside⟩ := hfound.exists_inExpression
  refine ⟨_, findings_of_ok hs hinside, ?_, ?_⟩
  · rw [hfound.findings_marking hu hr hg hdecide]
    congr 1
    apply List.map_congr_left
    intro st hst
    -- a node that is recorded needed parentheses before
    cases ht : tipAmong ns st with
    | false => rw [Bool.or_false]
    | true => rw [hfound.needs_of_tipAmong hu hst ht, Bool.or_true]
  · rw [hfound.findings_marking hu hr hg hinside, List.map_map]
    rfl

end Recording

/-- The statement `(function () {})[(a, b)]` without its parentheses. The function has no remarks, the sequence has some
that do not mention them, and the member access has some that deny them. -/
def functionMember : Heap where
  nodes := #[
    { tag := "FunctionExpression" },
    { tag := "SequenceExpression", extra := some ⟨0⟩ },
    { tag := "MemberExpression"
      fields := .ofEntries [("object", .node ⟨0⟩), ("property", .node ⟨1⟩)]
      extra := some ⟨1⟩ },
    { tag := "ExpressionStatement", fields := .ofEntries [("expression", .node ⟨2⟩)] }]
  maps := #[.ofEntries [("raw", .str "a, b")], .ofEntries [("parenthesized", .bool false)]]

theorem members_functionMember : functionMember.members (.node ⟨0⟩) = [] ∧ functionMember.members (.node ⟨1⟩) = [] ∧
    functionMember.members (.node ⟨2⟩) = [.node ⟨0⟩, .node ⟨1⟩] ∧ functionMember.members (.node ⟨3⟩) = [.node ⟨2⟩] := by
  decide

theorem below_functionMember {n : NodeId} :
    (functionMember.Below (.node ⟨0⟩) (.node n) ↔ n = ⟨0⟩) ∧ (functionMember.Below (.node ⟨1⟩) (.node n) ↔ n = ⟨1⟩) ∧
    (functionMember.Below (.node ⟨3⟩) (.node n) ↔ n = ⟨3⟩ ∨ n = ⟨2⟩ ∨ n = ⟨0⟩ ∨ n = ⟨1⟩) := by
  obtain ⟨hfunction, hsequence, hmember, hstatement⟩ := members_functionMember
  have h0 : functionMember.Below (.node ⟨0⟩) (.node n) ↔ n = ⟨0⟩ := by
    rw [Heap.below_node_iff, hfunction]
    simp [eq_comm]
  have h1 : functionMember.Below (.node ⟨1⟩) (.node n) ↔ n = ⟨1⟩ := by
    rw [Heap.below_node_iff, hsequence]
    simp [eq_comm]
  have h2 : functionMember.Below (.node ⟨2⟩) (.node n) ↔ n = ⟨2⟩ ∨ n = ⟨0⟩ ∨ n = ⟨1⟩ := by
    rw [Heap.below_node_iff, hmember]
    simp [h0, h1, eq_comm]
  refine ⟨h0, h1, ?_⟩
  rw [Heap.below_node_iff, hstatement]
  simp [h2, eq_comm]

theorem unshared_functionMember : functionMember.Unshared (.node ⟨3⟩) := by
  obtain ⟨hfunction, hsequence, hmember, hstatement⟩ := members_functionMember
  have hacyclic : ∀ v w, w ∈ functionMember.members v → ¬ functionMember.Below w v := by
    intro v w hw hb
    exact Heap.acyclic_of_measure Heap.nodePlace (by decide) (by decide) v v .refl (.head' hw hb)
  have hleaf : ∀ v, functionMember.members v = [] → functionMember.Unshared v := by
    intro v hv
    exact .intro (hacyclic v) (by simp [hv]) (by simp [hv])
  have hapart : functionMember.Apart (.node ⟨0⟩) (.node ⟨1⟩) := by
    intro n h0 h1
    have hn := below_functionMember.1.1 h0
    subst hn
    simp [below_functionMember] at h1
  have haccess : functionMember.Unshared (.node ⟨2⟩) := by
    apply Heap.Unshared.intro (hacyclic _)
    · simp [hmember, hapart]
    · simp [hmember, hleaf _ hfunction, hleaf _ hsequence]
  apply Heap.Unshared.intro (hacyclic _)
  · simp [hstatement]
  · simp [hstatement, haccess]

theorem remarksApart_functionMember : functionMember.RemarksApart
    (fun n => functionMember.Below (.node ⟨3⟩) (.node n)) (· ∈ [⟨0⟩, ⟨1⟩]) where
  present := by
    intro n m hn hm
    rcases below_functionMember.2.2.1 hn with rfl | rfl | rfl | rfl <;>
      simp [functionMember, Heap.node] at hm ⊢ <;> subst hm <;> decide
  apart := by
    intro n q m hn hq hmark hm hm'
    rcases below_functionMember.2.2.1 hq with rfl | rfl | rfl | rfl
    · simp [functionMember, Heap.node] at hm'
    · simp [functionMember, Heap.node] at hm'
      subst hm'
      simp at hmark
      rcases hmark with rfl | rfl <;> simp [functionMember, Heap.node] at hm
    · simp
    · simp

theorem visits_functionMember : (Path.new (.node ⟨3⟩)).visits functionMember =
    [[.node ⟨3⟩], [.node ⟨2⟩, .str "expression", .node ⟨3⟩],
      [.node ⟨0⟩, .str "object", .node ⟨2⟩, .str "expression", .node ⟨3⟩],
      [.node ⟨1⟩, .str "property", .node ⟨2⟩, .str "expression", .node ⟨3⟩]] := by
  decide

theorem marking_keeps_verdicts_functionMember :
    functionMember.Unshared (.node ⟨3⟩) ∧
    functionMember.RemarksApart (fun n => functionMember.Below (.node ⟨3⟩) (.node n)) (· ∈ [⟨0⟩, ⟨1⟩]) ∧
    (Path.new (.node ⟨3⟩)).findings functionMember false =
      .ok (((Path.new (.node ⟨3⟩)).visits functionMember).map fun st => (st, tipAmong [⟨0⟩, ⟨1⟩] st)) ∧
    (Path.new (.node ⟨3⟩)).findings functionMember true =
      .ok (((Path.new (.node ⟨3⟩)).visits functionMember).map fun st => (st, tipAmong [⟨1⟩] st)) ∧
    ∀ b, (Path.new (.node ⟨3⟩)).findings (functionMember.marking [⟨0⟩, ⟨1⟩]) b =
      .ok (((Path.new (.node ⟨3⟩)).visits functionMember).map fun st => (st, tipAmong [⟨0⟩, ⟨1⟩] st)) := by
  have hs := Path.stack_new_ne_nil (.node ⟨3⟩) {}
  have hfindings : (Path.new (.node ⟨3⟩)).findings functionMember false =
      .ok (((Path.new (.node ⟨3⟩)).visits functionMember).map fun st => (st, tipAmong [⟨0⟩, ⟨1⟩] st)) := by
    apply findings_of_ok hs
    rw [visits_functionMember]
    simp only [List.forall_mem_cons]
    exact ⟨⟨.root, by decide⟩, ⟨.default, by decide⟩, ⟨.leadingToken, by decide⟩,
      ⟨.ofTag "SequenceExpression", by decide⟩, by simp⟩
  have hinside : (Path.new (.node ⟨3⟩)).findings functionMember true =
      .ok (((Path.new (.node ⟨3⟩)).visits functionMember).map fun st => (st, tipAmong [⟨1⟩] st)) := by
    apply findings_of_ok hs
    rw [visits_functionMember]
    simp only [List.forall_mem_cons]
    exact ⟨⟨.root, by decide⟩, ⟨.default, by decide⟩, ⟨.default, by decide⟩,
      ⟨.ofTag "SequenceExpression", by decide⟩, by simp⟩
  obtain ⟨before, hbefore, hsame, hafter⟩ := marking_keeps_verdicts (o := {}) unshared_functionMember
    remarksApart_functionMember ((functionMember.alike_marking [⟨0⟩, ⟨1⟩]).agrees_standard) hfindings
    (by simp [visits_functionMember, tipAmong])
  obtain rfl := Except.ok.inj (hinside.symm.trans hbefore)
  refine ⟨unshared_functionMember, remarksApart_functionMember, hfindings, hinside, ?_⟩
  intro b
  cases b with
  | false => exact hsame
  | true =>
    rw [hafter, visits_functionMember]
    decide

/-! ### Remarks in common -/

/-- Remarks do not matter for what is shared. -/
theorem Tree.Heap.Alike.unshared {v : Value} (ha : h.Alike h') (hv : h.Unshared v) : h'.Unshared v := by
  induction hv with
  | @intro v hcircle hapart _ ih =>
    apply Heap.Unshared.intro <;> rw [ha.members]
    · intro w hw hb
      exact hcircle w hw ((ha.below w v).1 hb)
    · refine hapart.imp ?_
      intro a b hab n hn hn'
      exact hab n ((ha.below a _).1 hn) ((ha.below b _).1 hn')
    · exact ih

/-- The same statement, where the member access has the remarks of the sequence. -/
def commonRemarks : Heap :=
  { functionMember with nodes := functionMember.nodes.modify 2 fun x => { x with extra := some ⟨0⟩ } }

theorem alike_commonRemarks : functionMember.Alike commonRemarks where
  size := rfl
  lists := rfl
  locations := rfl
  tag := by rintro ⟨_ | _ | _ | _ | i⟩ <;> rfl
  fields := by rintro ⟨_ | _ | _ | _ | i⟩ <;> rfl
  location := by rintro ⟨_ | _ | _ | _ | i⟩ <;> rfl

/-- What is recorded for the sequence is read at the member access too, where no parentheses were needed. -/
theorem marking_changes_commonRemarks :
    commonRemarks.Unshared (.node ⟨3⟩) ∧
    (Path.new (.node ⟨3⟩)).grammar.Agrees commonRemarks (commonRemarks.marking [⟨0⟩, ⟨1⟩]) ∧
    (Path.new (.node ⟨3⟩)).findings commonRemarks false =
      .ok (((Path.new (.node ⟨3⟩)).visits commonRemarks).map fun st => (st, tipAmong [⟨0⟩, ⟨1⟩] st)) ∧
    (Path.new (.node ⟨3⟩)).findings (commonRemarks.marking [⟨0⟩, ⟨1⟩]) false =
      .ok (((Path.new (.node ⟨3⟩)).visits commonRemarks).map fun st => (st, tipAmong [⟨0⟩, ⟨1⟩, ⟨2⟩] st)) ∧
    (Path.new (.node ⟨3⟩)).findings (commonRemarks.marking [⟨0⟩, ⟨1⟩]) false ≠
      (Path.new (.node ⟨3⟩)).findings commonRemarks false := by
  have hs := Path.stack_new_ne_nil (.node ⟨3⟩) {}
  have hvisits := visits_functionMember
  rw [← visits_alike (p := .new (.node ⟨3⟩)) alike_commonRemarks alike_commonRemarks.agrees_standard] at hvisits
  have hmarked := visits_alike (p := .new (.node ⟨3⟩)) (commonRemarks.alike_marking [⟨0⟩, ⟨1⟩])
    (commonRemarks.alike_marking [⟨0⟩, ⟨1⟩]).agrees_standard
  have hbefore : (Path.new (.node ⟨3⟩)).findings commonRemarks false =
      .ok (((Path.new (.node ⟨3⟩)).visits commonRemarks).map fun st => (st, tipAmong [⟨0⟩, ⟨1⟩] st)) := by
    apply findings_of_ok hs
    rw [hvisits]
    simp only [List.forall_mem_cons]
    exact ⟨⟨.root, by decide⟩, ⟨.default, by decide⟩, ⟨.leadingToken, by decide⟩,
      ⟨.ofTag "SequenceExpression", by decide⟩, by simp⟩
  have hafter : (Path.new (.node ⟨3⟩)).findings (commonRemarks.marking [⟨0⟩, ⟨1⟩]) false =
      .ok (((Path.new (.node ⟨3⟩)).visits commonRemarks).map fun st => (st, tipAmong [⟨0⟩, ⟨1⟩, ⟨2⟩] st)) := by
    rw [← hmarked]
    apply findings_of_ok hs
    rw [hmarked, hvisits]
    simp only [List.forall_mem_cons]
    exact ⟨⟨.root, by decide⟩, ⟨.sourceParens, by decide⟩, ⟨.sourceParens, by decide⟩,
      ⟨.sourceParens, by decide⟩, by simp⟩
  refine ⟨alike_commonRemarks.unshared unshared_functionMember,
    (commonRemarks.alike_marking [⟨0⟩, ⟨1⟩]).agrees_standard, hbefore, hafter, ?_⟩
  rw [hafter, hbefore, hvisits]
  decide

end Bracketing
