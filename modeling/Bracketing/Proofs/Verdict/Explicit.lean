import Bracketing.Proofs.Path.Enumerate
import Bracketing.Proofs.Tree.Enclosed
import Bracketing.Proofs.Verdict.Enclosing
import Bracketing.Proofs.Verdict.Leading
import Bracketing.Proofs.Verdict.Unbroken

/-!
# Parentheses made explicit

All nodes of a tree that need parentheses are put in some (`Heap.enclosing`), and the verdicts on the new tree are
compared with those on the old one.

* **Sites** (`Site.Bare.byKind_enclosing`): a node that got no parentheses and needed none by its kind needs none now.
* **Leading position** (`Wraps.leadsFrom`): a node that did not lead does not lead now, for parentheses only close a way
  up.
* **Stacks** (`Mirrors`): a stack of the old tree with parentheses in between.
* **Verdicts** (`Mirrors.decide_kept`, `decide_enclosed`, `decide_unmarked_parens`): a node that needed no parentheses
  needs none, a node that got some needs no more, and those that it got need some only as the callee of a construction.
-/

namespace Bracketing

open Bracketing.Tree Bracketing.Tree.Heap

variable {h : Heap} {ns : List NodeId}

/-! ## Sites -/

/-- The site in the tree where some nodes got parentheses. -/
def Site.enclosing (s : Site) (ns : List NodeId) : Site := { s with heap := s.heap.enclosing ns }

/-- The nodes of the site are nodes of the heap, and the one that the verdict is about got no parentheses. -/
structure Site.Bare (s : Site) (ns : List NodeId) : Prop where
  node : s.node.index < s.heap.nodes.size
  parent : s.parent.index < s.heap.nodes.size
  child : ∀ k c, s.heap.child? s.node k = some c → c.index < s.heap.nodes.size
  bare : s.node ∉ ns

theorem expectEdge_enclosing {c q : NodeId} (hc : c.index < h.nodes.size) (hq : q.index < h.nodes.size) (hbare : c ∉ ns)
    (k : String) : expectEdge (h.enclosing ns) q k c = expectEdge h q k c := by
  simp only [expectEdge, get_enclosing hq, wrap_eq_node_iff hc, hbare, not_false_eq_true, and_true,
    Invariant.notUnder, tag_enclosing hq, start_enclosing hq]

namespace Site.Bare

variable {s : Site} (hs : s.Bare ns)
include hs

theorem kind_eq : (s.enclosing ns).kind = s.kind := kind_enclosing hs.node

theorem parentKind_eq : (s.enclosing ns).parentKind = s.parentKind := kind_enclosing hs.parent

theorem fills_eq (k : String) : (s.enclosing ns).fills k = s.fills k := by
  have hget : (s.heap.enclosing ns).get s.parent k = .node s.node ↔ s.heap.get s.parent k = .node s.node := by
    rw [get_enclosing hs.parent, wrap_eq_node_iff hs.node, and_iff_left hs.bare]
  exact congrArg (s.isUnder k && ·) (decide_eq_decide.2 hget)

theorem operator_eq : (s.enclosing ns).operator = s.operator := textAt_enclosing hs.node _

theorem parentOperator_eq : (s.enclosing ns).parentOperator = s.parentOperator := textAt_enclosing hs.parent _

theorem binaryInBinary_eq : (s.enclosing ns).binaryInBinary = s.binaryInBinary := by
  have hedge : ∀ k, expectEdge (s.enclosing ns).heap (s.enclosing ns).parent k (s.enclosing ns).node =
      expectEdge s.heap s.parent k s.node := expectEdge_enclosing hs.node hs.parent hs.bare
  unfold Site.binaryInBinary
  simp only [hs.operator_eq, hs.parentOperator_eq, hedge]
  rfl

theorem isCallee_eq : (s.enclosing ns).isCallee = s.isCallee := by
  rw [Site.isCallee, Site.isCallee, hs.parentKind_eq, hs.fills_eq]

theorem isObject_eq : (s.enclosing ns).isObject = s.isObject := by
  rw [Site.isObject, Site.isObject, hs.parentKind_eq, hs.fills_eq]

theorem isObjectType_eq : (s.enclosing ns).isObjectType = s.isObjectType := by
  rw [Site.isObjectType, Site.isObjectType, hs.parentKind_eq]
  rfl

/-- A child of another kind than before stands in parentheses. -/
theorem child_kind {k : String} {K : Kind} (hK : K ≠ .parenthesized)
    (hk : (s.enclosing ns).heap.kind ((s.enclosing ns).heap.child? (s.enclosing ns).node k) = K) :
    s.heap.kind (s.heap.child? s.node k) = K := by
  rcases @kind_child_enclosing s.heap ns s.node k hs.node (hs.child k) with he | he
  · exact he.symm.trans hk
  · exact absurd (hk.symm.trans he) hK

/-- A demand that is made of a child as well is made of it before if it is made of it now. -/
theorem demand_eq {b : Bool} {k : String} {K : Kind} {r : Option Bool} (hK : K ≠ .parenthesized)
    (hr : (if b && s.heap.kind (s.heap.child? s.node k) = K then some true else none) = r) (hne : r ≠ some true) :
    (if b && (s.enclosing ns).heap.kind ((s.enclosing ns).heap.child? (s.enclosing ns).node k) = K then some true
      else none) = r := by
  split at hr
  · exact absurd hr.symm hne
  · rename_i hno
    rw [if_neg, hr]
    intro hyes
    simp only [Bool.and_eq_true, decide_eq_true_eq] at hno hyes
    exact hno ⟨hyes.1, hs.child_kind hK hyes.2⟩

/-- A node that got no parentheses and needs none by its kind needs none beside those of other nodes. -/
theorem byKind_enclosing {g g' : Option NodeId} {r : Option Bool} (hr : s.byKind g = .ok r) (hne : r ≠ some true) :
    (s.enclosing ns).byKind g' = .ok r := by
  have hunder : ∀ k, (s.enclosing ns).isUnder k = s.isUnder k := fun _ => rfl
  unfold Site.byKind at hr ⊢
  simp only [hs.kind_eq, hs.parentKind_eq, hs.fills_eq, hs.isCallee_eq, hs.isObject_eq, hs.isObjectType_eq,
    hs.parentOperator_eq, hs.binaryInBinary_eq, hunder]
  cases hk : s.kind with
  | literal =>
    have hget : (s.enclosing ns).heap.get (s.enclosing ns).node "value" = s.heap.wrap ns (s.heap.get s.node "value") :=
      get_enclosing hs.node "value"
    simp only [hk] at hr
    simp only [hget]
    cases hv : s.heap.get s.node "value" with
    | node m =>
      rw [hv] at hr
      by_cases hm : m ∈ ns
      · rw [wrap_of_mem hm]
        exact hr
      · rw [wrap_of_not_mem hm]
        exact hr
    | _ =>
      rw [hv] at hr
      exact hr
  | tsAs | tsSatisfies =>
    simp only [hk, Except.ok.injEq] at hr ⊢
    exact hs.demand_eq (by decide) hr hne
  | call =>
    simp only [hk, Except.ok.injEq] at hr ⊢
    exact hs.demand_eq (by decide) hr hne
  | functionType =>
    simp only [hk, Except.ok.injEq] at hr ⊢
    by_cases hn : s.parentKind = .nullableType
    · exact absurd (by simp [← hr, hn]) hne
    · simpa [hn] using hr
  | _ =>
    simp only [hk] at hr ⊢
    exact hr

end Site.Bare

/-! ## Leading position -/

theorem leftmostSlot_enclosing {q : NodeId} (hq : q.index < h.nodes.size) :
    leftmostSlot? (h.enclosing ns) q = leftmostSlot? h q := by
  unfold leftmostSlot?
  rw [kind_enclosing hq, flagAt_enclosing hq]

/-- A step up from a node without parentheses is judged as before. -/
theorem passage_enclosing {c q : NodeId} (hc : c.index < h.nodes.size) (hq : q.index < h.nodes.size) (hbare : c ∉ ns)
    (name : Value) (next : Option Value) : passage (h.enclosing ns) c name q next = passage h c name q next := by
  have hfirst : ((h.enclosing ns).elements q "expressions").head? = some (.node c) ↔
      (h.elements q "expressions").head? = some (.node c) := by
    rw [elements_enclosing hq, List.head?_map, Option.map_eq_some_iff]
    constructor
    · rintro ⟨v, hv, he⟩
      rw [hv, ((wrap_eq_node_iff hc).1 he).1]
    · intro hv
      exact ⟨_, hv, wrap_of_not_mem hbare⟩
  unfold passage
  simp only [kind_enclosing hq, leftmostSlot_enclosing hq, expectEdge_enclosing hc hq hbare, hfirst,
    Invariant.notFirst, tag_enclosing hq, start_enclosing hq]

/-- The second ancestors are the first, with the parentheses of those nodes that got some. The last one, which has
nothing around it, has none. -/
inductive Wraps (h : Heap) (ns : List NodeId) : List Ancestor → List Ancestor → Prop
  | nil : Wraps h ns [] []
  | kept {as as' : List Ancestor} {n : NodeId} (name : Value) (next : Option Value) (hn : n.index < h.nodes.size)
    (hbare : as = [] ∨ n ∉ ns) : Wraps h ns as as' →
      Wraps h ns (⟨some n, name, next⟩ :: as) (⟨some n, name, next⟩ :: as')
  | enclosed {as as' : List Ancestor} {n : NodeId} (name : Value) (next : Option Value) (hn : n ∈ ns) :
      n.index < h.nodes.size → Wraps h ns as as' → Wraps h ns (⟨some n, name, next⟩ :: as)
        (⟨some n, .str "expression", next⟩ :: ⟨some (h.wrapper ns n), name, some (.str "expression")⟩ :: as')

namespace Wraps

variable {as as' : List Ancestor}

/-- The nearest ancestors are the same, but for their names. -/
theorem exists_head {n : NodeId} {name : Value} {next : Option Value}
    (hw : Wraps h ns (⟨some n, name, next⟩ :: as) as') :
    n.index < h.nodes.size ∧ ∃ name' bs, as' = ⟨some n, name', next⟩ :: bs := by
  cases hw with
  | kept _ _ hn _ _ => exact ⟨hn, _, _, rfl⟩
  | enclosed _ _ _ hn _ => exact ⟨hn, _, _, rfl⟩

theorem head_node (hw : Wraps h ns as as') : as'.head?.bind Ancestor.node = as.head?.bind Ancestor.node ∧
    ∀ q, as.head?.bind Ancestor.node = some q → q.index < h.nodes.size := by
  cases hw with
  | nil => exact ⟨rfl, by simp⟩
  | kept _ _ hn _ _ =>
    refine ⟨rfl, ?_⟩
    rintro _ ⟨⟩
    exact hn
  | enclosed _ _ _ hn _ =>
    refine ⟨rfl, ?_⟩
    rintro _ ⟨⟩
    exact hn

/-- What did not lead does not lead: a way up that was closed stays so, and parentheses close more. -/
theorem leadsFrom (hw : Wraps h ns as as') {b : Bool} (hl : Bracketing.leadsFrom h b as = .ok false) :
    Bracketing.leadsFrom (h.enclosing ns) b as' = .ok false := by
  induction hw with
  | nil => simp [Bracketing.leadsFrom] at hl
  | @enclosed as as' n name next hn hlt hw ih =>
    rw [leadsFrom_cons, passage_closed (.inr (kind_wrapper hn))]
    rfl
  | @kept as as' n name next hn hbare hw ih =>
    cases as with
    | nil => simp [Bracketing.leadsFrom] at hl
    | cons parent as =>
      obtain ⟨q, name₂, next₂⟩ := parent
      obtain ⟨q, rfl⟩ : ∃ m, q = some m := by cases hw <;> exact ⟨_, rfl⟩
      obtain ⟨hq, name', bs, rfl⟩ := hw.exists_head
      have hbare : n ∉ ns := hbare.resolve_left (by simp)
      rw [leadsFrom_cons, passage_enclosing hn hq hbare, leadsFrom_next b _ _ none next₂]
      rw [leadsFrom_cons, leadsFrom_next b _ _ none next₂] at hl
      cases hp : passage h n name q next₂ with
      | error x =>
        rw [hp] at hl
        cases hl
      | ok r =>
        rw [hp] at hl
        cases r with
        | «open» => exact ih hl
        | statement => exact hl
        | body => exact hl
        | closed => exact hl

end Wraps

/-! ## Stacks -/

/-- The second stack is the first, with the parentheses of those nodes that got some, apart from the root. -/
inductive Mirrors (h : Heap) (ns : List NodeId) : List Value → List Value → Prop
  | root (v : Value) : Mirrors h ns [v] [v]
  | kept {v w : Value} {st st' : List Value} (name : Value) (hw : ∀ n, w = .node n → n ∉ ns) :
      Mirrors h ns (v :: st) (v :: st') → Mirrors h ns (w :: name :: v :: st) (w :: name :: v :: st')
  | enclosed {v : Value} {st st' : List Value} {n : NodeId} (name : Value) (hn : n ∈ ns) :
      Mirrors h ns (v :: st) (v :: st') → Mirrors h ns (.node n :: name :: v :: st)
        (.node n :: .str "expression" :: .node (h.wrapper ns n) :: name :: v :: st')

theorem isNode_enclosing {n : NodeId} (hn : n.index < h.nodes.size) :
    Grammar.standard.isNode (h.enclosing ns) (.node n) = Grammar.standard.isNode h (.node n) := by
  simp only [Grammar.standard, tag_enclosing hn]

theorem isNode_wrapper {n : NodeId} (hn : n ∈ ns) :
    Grammar.standard.isNode (h.enclosing ns) (.node (h.wrapper ns n)) = true := by
  simp [Grammar.standard, node_wrapper hn, parenNode, Kind.tag]

theorem asNode_enclosing {v : Value} (hv : ∀ n, v = .node n → n.index < h.nodes.size) :
    Grammar.standard.asNode (h.enclosing ns) v = Grammar.standard.asNode h v := by
  cases v with
  | node n => simp only [Grammar.asNode, isNode_enclosing (hv n rfl)]
  | _ => rfl

namespace Mirrors

variable {st st' : List Value}

/-- The ancestors on the second stack are those on the first, with parentheses. -/
theorem wraps (hns : ∀ n ∈ ns, Grammar.standard.isNode h (.node n) = true) (hm : Mirrors h ns st st')
    (hc : ∀ n, .node n ∈ Stack.values st → n.index < h.nodes.size) :
    ∀ next, Wraps h ns (Stack.ancestors .standard h st next) (Stack.ancestors .standard (h.enclosing ns) st' next) := by
  -- the entry towards the tip is general: one step up it is the name of the value below
  induction hm with
  | root v =>
    intro next
    have hv : ∀ n, v = .node n → n.index < h.nodes.size := fun n hn => hc n (hn ▸ List.mem_singleton.2 rfl)
    simp only [Stack.ancestors, asNode_enclosing hv]
    rcases asNode_standard h v with hno | ⟨n, rfl, hn, -⟩
    · rw [hno]
      exact .nil
    · rw [hn]
      exact .kept .null next (hv n rfl) (.inl rfl) .nil
  | @kept v w st st' name hw _ ih =>
    intro next
    have hrest := ih (fun n hn => hc n (List.mem_cons_of_mem _ hn)) (some name)
    have hv : ∀ n, w = .node n → n.index < h.nodes.size := fun n hn => hc n (hn ▸ List.mem_cons_self)
    rw [Stack.ancestors, Stack.ancestors, asNode_enclosing hv]
    rcases asNode_standard h w with hno | ⟨n, rfl, hn, -⟩
    · rw [hno]
      exact hrest
    · rw [hn]
      exact .kept name next (hv n rfl) (.inr (hw n rfl)) hrest
  | @enclosed v st st' n name hn _ ih =>
    intro next
    have hrest := ih (fun n hn => hc n (List.mem_cons_of_mem _ hn)) (some name)
    have hlt : n.index < h.nodes.size := hc n List.mem_cons_self
    have hinner : Grammar.standard.isNode (h.enclosing ns) (.node n) = true := (isNode_enclosing hlt).trans (hns n hn)
    rw [ancestors_cons (hns n hn), ancestors_cons hinner, ancestors_cons (isNode_wrapper hn)]
    exact .enclosed name next hn hlt hrest

end Mirrors

/-! ## Verdicts -/

theorem parent_of_ancestors {p : Path} {a : Ancestor} {as : List Ancestor}
    (has : Stack.ancestors p.grammar h p.stack none = a :: as) : p.parent h = as.head?.bind Ancestor.node := by
  rw [Path.parent_eq, lineage_eq p h none, has]
  cases as <;> simp

theorem containsCall_enclosing {n : NodeId} (ha : h.Acyclic (.node n)) (hc : h.Closed (.node n)) :
    containsCall (h.enclosing ns) n = containsCall h n := by
  obtain ⟨b, hb, hiff⟩ := exists_containsCall ha
  obtain ⟨b', hb', hiff'⟩ := exists_containsCall (ha.enclosing hc ns)
  rw [hb, hb', Bool.eq_iff_iff.2 (hiff'.trans ((exists_below_kind_iff hc (by decide)).trans hiff.symm))]

theorem isLetBracket_of_enclosing {n : NodeId} (hn : n.index < h.nodes.size)
    (hchild : ∀ c, h.child? n "object" = some c → c.index < h.nodes.size)
    (hl : isLetBracket (h.enclosing ns) n = true) : isLetBracket h n = true := by
  unfold isLetBracket child? at *
  rw [kind_enclosing hn, flagAt_enclosing hn, get_enclosing hn] at hl
  cases hv : h.get n "object" with
  | node m =>
    rw [hv] at hl hchild
    by_cases hm : m ∈ ns
    · rw [wrap_of_mem hm] at hl
      simp [kind_wrapper hm] at hl
    · rw [wrap_of_not_mem hm] at hl
      simpa only [kind_enclosing (hchild m rfl), textAt_enclosing (hchild m rfl)] using hl
  | _ => simp [hv, wrap] at hl

/-- A node that may begin a statement still may: what it prints first is the same, or a parenthesis. -/
theorem mayLead_enclosing {n : NodeId} (hn : n.index < h.nodes.size)
    (hchild : ∀ c, h.child? n "object" = some c → c.index < h.nodes.size) (hm : mayLead h (some n) = true) :
    mayLead (h.enclosing ns) (some n) = true := by
  have hlet : isLetBracket h n = false → isLetBracket (h.enclosing ns) n = false := by
    intro hno
    by_contra hyes
    rw [isLetBracket_of_enclosing hn hchild (by simpa using hyes)] at hno
    cases hno
  simp only [mayLead, kind_enclosing hn] at hm ⊢
  cases hk : h.kind (some n) with
  | functionExpression | objectExpression | classExpression => simp [hk] at hm
  | _ =>
    simp only [hk, Bool.not_eq_true'] at hm ⊢
    exact hlet hm

/-- A node that got no parentheses and needed none for its place needs none. -/
theorem decideByPlace_enclosing {p p' : Path} {s : Site} {r : Rule} (hs : s.Bare ns)
    (ha : s.heap.Acyclic (.node s.node)) (hc : s.heap.Closed (.node s.node))
    (hl : ∀ b, p.leads s.heap b = .ok false → p'.leads (s.heap.enclosing ns) b = .ok false)
    (hd : p.decideByPlace false s = .ok ⟨false, r⟩) :
    ∃ r', p'.decideByPlace false (s.enclosing ns) = .ok ⟨false, r'⟩ := by
  have hcall : containsCall (s.enclosing ns).heap (s.enclosing ns).node = containsCall s.heap s.node :=
    containsCall_enclosing ha hc
  unfold Path.decideByPlace at *
  rw [hs.parentKind_eq, hs.fills_eq, hcall, hs.kind_eq]
  by_cases hnew : (s.parentKind = .new && s.fills "callee") = true
  · rw [if_pos hnew] at hd ⊢
    exact ⟨r, hd⟩
  · rw [if_neg hnew] at hd ⊢
    cases hm : mayLead s.heap (some s.node) with
    | true =>
      have hm' : mayLead (s.enclosing ns).heap (some (s.enclosing ns).node) = true :=
        mayLead_enclosing hs.node (hs.child "object") hm
      exact ⟨.default, by simp [hm']⟩
    | false =>
      have hlead : p.leads s.heap (s.kind ≠ .objectExpression) = .ok false := by
        simp only [hm, Bool.not_false, Bool.and_self, if_true] at hd
        cases hleads : p.leads s.heap (s.kind ≠ .objectExpression) with
        | error x =>
          rw [hleads] at hd
          cases hd
        | ok b =>
          rw [hleads] at hd
          cases b with
          | true => cases hd
          | false => rfl
      have hlead' : p'.leads (s.enclosing ns).heap (s.kind ≠ .objectExpression) = .ok false := hl _ hlead
      rw [hlead']
      split
      · exact ⟨.default, rfl⟩
      · exact ⟨.default, rfl⟩

/-- A node that got no parentheses and needed none needs none, under a parent that has been there before. -/
theorem decideUnder_enclosing {p p' : Path} {s : Site} {r : Rule} (hs : s.Bare ns) (ha : s.heap.Acyclic (.node s.node))
    (hc : s.heap.Closed (.node s.node)) (hg : p.grammar = .standard) (hg' : p'.grammar = .standard)
    (hl : ∀ b, p.leads s.heap b = .ok false → p'.leads (s.heap.enclosing ns) b = .ok false)
    (hd : p.decideUnder false s = .ok ⟨false, r⟩) :
    ∃ r', p'.decideUnder false (s.enclosing ns) = .ok ⟨false, r'⟩ := by
  have hst : p'.grammar.isStatement (s.enclosing ns).heap (s.enclosing ns).node =
      p.grammar.isStatement s.heap s.node := by
    rw [hg, hg']
    exact congrArg isStatementTag (tag_enclosing hs.node)
  have hmark : (s.enclosing ns).heap.parenthesized (s.enclosing ns).node = s.heap.parenthesized s.node :=
    parenthesized_enclosing hs.node
  unfold Path.decideUnder at *
  rw [hst, hs.kind_eq, hs.parentKind_eq, hmark]
  -- the checks come in the same order on both sides and ask the same up to the rules about kinds
  split at hd
  · rename_i h1
    exact ⟨.statement, if_pos h1⟩
  rename_i h1
  split at hd
  · rename_i h2
    exact ⟨.identifier, by rw [if_neg h1, if_pos h2]⟩
  rename_i h2
  split at hd
  · rename_i h3
    exact ⟨.explicitParent, by rw [if_neg h1, if_neg h2, if_pos h3]⟩
  rename_i h3
  split at hd
  · cases hd
  rename_i h4
  rw [if_neg h1, if_neg h2, if_neg h3, if_neg h4]
  cases hk : s.byKind (p.parent s.heap 1) with
  | error x =>
    rw [hk] at hd
    cases hd
  | ok k =>
    rw [hk] at hd
    have hne : k ≠ some true := by
      rintro rfl
      cases hd
    rw [hs.byKind_enclosing hk hne]
    cases k with
    | some b =>
      cases b with
      | true => exact absurd rfl hne
      | false => exact ⟨_, rfl⟩
    | none => exact decideByPlace_enclosing hs ha hc hl hd

theorem index_lt_of_child {n c : NodeId} {k : String} (hc : h.Closed (.node n)) (hk : h.child? n k = some c) :
    c.index < h.nodes.size := by
  unfold child? at hk
  split at hk
  · rename_i m hm
    obtain rfl := Option.some.inj hk
    exact hc m (.single (member_of_get_object hm (.inl ⟨m, rfl⟩)))
  · cases hk

/-- No assignment to an object pattern arises by parentheses. -/
theorem patternAssignment_of_enclosing {n : NodeId} (hc : h.Closed (.node n))
    (hp : (h.enclosing ns).kind (some n) = .assignment ∧
      (h.enclosing ns).kind ((h.enclosing ns).child? n "left") = .objectPattern) :
    h.kind (some n) = .assignment ∧ h.kind (h.child? n "left") = .objectPattern := by
  have hn := hc n .refl
  obtain ⟨hkind, hleft⟩ := hp
  rw [kind_enclosing hn] at hkind
  rcases @kind_child_enclosing h ns n "left" hn (fun c hk => index_lt_of_child hc hk) with he | he
  · exact ⟨hkind, he.symm.trans hleft⟩
  · rw [he] at hleft
    cases hleft

/-- The path ends at the callee of a construction, at or below which there is a call. -/
def Path.ConstructsCall (p : Path) (h : Heap) (n : NodeId) : Prop :=
  ∃ q, p.parent h = some q ∧ p.name = .str "callee" ∧ h.kind (some q) = .new ∧ h.get q "callee" = .node n ∧
    ∃ c, h.Below (.node n) (.node c) ∧ h.kind (some c) = .call

section Parens

variable {p : Path} {n : NodeId} {rest : List Value} (hg : p.grammar = .standard) (hs : p.stack = .node n :: rest)
  (hk : h.kind (some n) = .parenthesized) (ha : h.Acyclic (.node n))
include hg hs hk

/-- The verdict on parentheses: the mark counts, and the place as the callee of a construction. -/
theorem decide_parens_eq : p.decide h false =
    (p.parent h).elim (.ok ⟨false, .root⟩) fun q =>
      if h.kind (some q) = .parenthesized then .ok ⟨false, .explicitParent⟩
      else if h.parenthesized n then .ok ⟨true, .sourceParens⟩
      else if h.kind (some q) = .new && (⟨h, n, q, p.name⟩ : Site).fills "callee" then
        (containsCall h n).map (⟨·, .newCallee⟩)
      else .ok ⟨false, .default⟩ := by
  have htag := tag_of_kind hk (by decide)
  have hn : p.grammar.isNode h (.node n) = true := by simp [hg, Grammar.standard, htag, Kind.tag]
  have hst : p.grammar.isStatement h n = false := by
    rw [hg]
    exact (congrArg isStatementTag htag).trans (by decide)
  have hlead : mayLead h (some n) = true := by simp [mayLead, isLetBracket, hk]
  rw [Path.decide_node hs hn, hk, if_neg (by simp)]
  cases p.parent h with
  | none => rfl
  | some q =>
    have hkind : (⟨h, n, q, p.name⟩ : Site).kind = .parenthesized := hk
    simp only [Option.elim_some]
    unfold Path.decideUnder
    simp only [hst, hkind, Bool.false_eq_true, reduceCtorEq, if_false]
    refine if_congr Iff.rfl rfl (if_congr Iff.rfl rfl ?_)
    have hby : (⟨h, n, q, p.name⟩ : Site).byKind (p.parent h 1) = .ok none := by simp [Site.byKind, hkind]
    rw [hby]
    show p.decideByPlace false ⟨h, n, q, p.name⟩ = _
    simp only [Path.decideByPlace, hlead, Bool.not_true, Bool.and_false, Bool.false_eq_true, if_false]
    refine if_congr Iff.rfl ?_ rfl
    cases containsCall h n <;> rfl

include ha

/-- Parentheses need more around them as the callee of a construction, if there is a call in them. -/
theorem decide_of_constructsCall (hc : p.ConstructsCall h n) : ∃ r, p.decide h false = .ok ⟨true, r⟩ := by
  obtain ⟨q, hq, hname, hnew, hget, hcall⟩ := hc
  obtain ⟨b, hb, hiff⟩ := exists_containsCall ha
  rw [decide_parens_eq hg hs hk, hq, Option.elim_some, if_neg (by simp [hnew])]
  split
  · exact ⟨_, rfl⟩
  · rw [if_pos (by simp [hnew, Site.fills, Site.isUnder, hname, hget]), hb, hiff.2 hcall]
    exact ⟨_, rfl⟩

/-- Parentheses without a mark need more around them only there. -/
theorem decide_unmarked_parens (hm : h.parenthesized n = false) :
    ∃ v, p.decide h false = .ok v ∧ (v.parens = true ↔ p.ConstructsCall h n) := by
  by_cases hc : p.ConstructsCall h n
  · obtain ⟨r, hr⟩ := decide_of_constructsCall hg hs hk ha hc
    exact ⟨_, hr, iff_of_true rfl hc⟩
  suffices ∃ r, p.decide h false = .ok ⟨false, r⟩ by
    obtain ⟨r, hr⟩ := this
    exact ⟨_, hr, iff_of_false Bool.false_ne_true hc⟩
  obtain ⟨b, hb, hiff⟩ := exists_containsCall ha
  rw [decide_parens_eq hg hs hk]
  cases hq : p.parent h with
  | none => exact ⟨_, rfl⟩
  | some q =>
    rw [Option.elim_some, hm, hb]
    split
    · exact ⟨_, rfl⟩
    rw [if_neg Bool.false_ne_true]
    split
    · rename_i hcallee
      simp only [Site.fills, Site.isUnder, Bool.and_eq_true, decide_eq_true_eq] at hcallee
      have hno : b = false := by
        by_contra hyes
        exact hc ⟨q, hq, hcallee.2.1, hcallee.1, hcallee.2.2, hiff.1 (by simpa using hyes)⟩
      exact ⟨_, by rw [hno]; rfl⟩
    · exact ⟨_, rfl⟩

end Parens

/-- A node that got parentheses needs no more. -/
theorem decide_enclosed {n : NodeId} {v name : Value} {st : List Value} (hin : n ∈ ns)
    (hn : Grammar.standard.isNode h (.node n) = true) (hc : h.Closed (.node n))
    (hobj : ¬ (h.kind (some n) = .assignment ∧ h.kind (h.child? n "left") = .objectPattern)) :
    ∃ r, (Path.ofStack (.node n :: .str "expression" :: .node (h.wrapper ns n) :: name :: v :: st)).decide
      (h.enclosing ns) false = .ok ⟨false, r⟩ := by
  have hn' : Grammar.standard.isNode (h.enclosing ns) (.node n) = true := (isNode_enclosing (hc n .refl)).trans hn
  rw [Path.decide_node rfl hn', if_neg fun hp => hobj (patternAssignment_of_enclosing hc hp),
    parent_of_ancestors (ancestors_cons hn' _ _ none), ancestors_cons (isNode_wrapper hin)]
  show ∃ r, Path.decideUnder _ false ⟨h.enclosing ns, n, h.wrapper ns n, .str "expression"⟩ = .ok ⟨false, r⟩
  have hparent : (⟨h.enclosing ns, n, h.wrapper ns n, .str "expression"⟩ : Site).parentKind = .parenthesized :=
    kind_wrapper hin
  unfold Path.decideUnder
  rw [if_pos hparent]
  split
  · exact ⟨_, rfl⟩
  split
  · exact ⟨_, rfl⟩
  · exact ⟨_, rfl⟩

namespace Mirrors

variable {st st' : List Value} {v name : Value} {n : NodeId}

/-- A node that got no parentheses and needed none needs none. -/
theorem decide_kept {r : Rule} (hns : ∀ n ∈ ns, Grammar.standard.isNode h (.node n) = true)
    (hm : Mirrors h ns (v :: st) (v :: st')) (hst : ∀ m, .node m ∈ Stack.values (v :: st) → m.index < h.nodes.size)
    (hbare : n ∉ ns) (hn : Grammar.standard.isNode h (.node n) = true) (ha : h.Acyclic (.node n))
    (hc : h.Closed (.node n))
    (hd : (Path.ofStack (.node n :: name :: v :: st)).decide h false = .ok ⟨false, r⟩) :
    ∃ r', (Path.ofStack (.node n :: name :: v :: st')).decide (h.enclosing ns) false = .ok ⟨false, r'⟩ := by
  have hlt := hc n .refl
  have hn' : Grammar.standard.isNode (h.enclosing ns) (.node n) = true := (isNode_enclosing hlt).trans hn
  have hup := ancestors_cons hn name (v :: st) none
  have hup' := ancestors_cons hn' name (v :: st') none
  have hrest := hm.wraps hns hst (some name)
  generalize Stack.ancestors .standard h (v :: st) (some name) = as at hrest hup
  generalize Stack.ancestors .standard (h.enclosing ns) (v :: st') (some name) = as' at hrest hup'
  have hleads : ∀ b, (Path.ofStack (.node n :: name :: v :: st)).leads h b = .ok false →
      (Path.ofStack (.node n :: name :: v :: st')).leads (h.enclosing ns) b = .ok false := by
    intro b hl
    have hw := Wraps.kept name none hlt (.inr hbare) hrest
    rw [Path.leads_eq] at hl ⊢
    exact (congrArg (leadsFrom _ b) hup').trans (hw.leadsFrom ((congrArg (leadsFrom _ b) hup.symm).trans hl))
  obtain ⟨hhead, hq⟩ := hrest.head_node
  rw [Path.decide_node rfl hn, parent_of_ancestors hup] at hd
  rw [Path.decide_node rfl hn', parent_of_ancestors hup', hhead]
  split at hd
  · cases hd
  · rename_i hp
    rw [if_neg fun hp' => hp (patternAssignment_of_enclosing hc hp')]
    cases hparent : as.head?.bind Ancestor.node with
    | none => exact ⟨.root, rfl⟩
    | some q =>
      rw [hparent] at hd
      have hs : Site.Bare ⟨h, n, q, name⟩ ns := ⟨hlt, hq q hparent, fun k c hk => index_lt_of_child hc hk, hbare⟩
      exact decideUnder_enclosing hs ha hc rfl rfl hleads hd

end Mirrors

end Bracketing
