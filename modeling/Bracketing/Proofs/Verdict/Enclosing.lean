import Bracketing.Proofs.Path.Step
import Bracketing.Proofs.Verdict.Answer

/-!
# The enclosing statement

A verdict looks up the path from its tip, and how far it looks depends on what it finds. It never looks beyond the
nearest statement: two stacks that agree from their tips down to the same statement (`Stack.Agree`) get the same
verdict, whatever is above that statement.

- The ancestors of such stacks agree up to the statement (`Stack.Agree.ancestors`);
- leading position is decided at the statement at the latest (`Lineage.Agree.leadsFrom_eq`), because no statement has a
  leftmost slot (`passage_ne_open`);
- the second ancestor is looked at only if the first is the type `?T`, which is no statement
  (`Site.byKind_grandparent`);
- `decide_below_statement`: the verdict, or the stop in its place, is the same.
-/

namespace Bracketing

open Bracketing.Tree

variable {h : Heap} {root : NodeId}

/-! ## Statements -/

/-- The kinds that statements have. -/
def statementKinds : List Kind :=
  [.block, .exportDefault, .expressionStatement, .forStatement, .returnStatement, .other]

theorem kind_of_statementTag : ∀ tag ∈ statementTags, Kind.ofTag tag ∈ statementKinds := by
  decide

theorem kind_mem_statementKinds (hs : isStatementTag (h.node root).tag = true) :
    h.kind (some root) ∈ statementKinds := by
  refine kind_of_statementTag _ ?_
  simpa [isStatementTag] using hs

/-- Statements are nodes of the standard grammar. -/
theorem isNode_of_statementTag (hs : isStatementTag (h.node root).tag = true) :
    Grammar.standard.isNode h (.node root) = true := by
  have hne : (h.node root).tag ≠ "" := by
    intro he
    rw [he] at hs
    exact absurd hs (by decide)
  simpa [Grammar.standard] using hne

theorem statementKinds_plain : ∀ k ∈ statementKinds,
    k ≠ .assignment ∧ k ≠ .arrowFunction ∧ k ≠ .sequence ∧ k ≠ .nullableType := by
  decide

/-- No statement prints one of its fields first. -/
theorem leftmostSlot_of_statement (hs : h.kind (some root) ∈ statementKinds) : leftmostSlot? h root = none := by
  unfold leftmostSlot?
  simp only [statementKinds, List.mem_cons, List.not_mem_nil, or_false] at hs
  rcases hs with hk | hk | hk | hk | hk | hk <;> rw [hk]

/-- Leading position does not go up through a statement. -/
theorem passage_ne_open (hs : h.kind (some root) ∈ statementKinds) (c : NodeId) (name : Value) (next : Option Value) :
    passage h c name root next ≠ .ok .open := by
  obtain ⟨-, harrow, hseq, -⟩ := statementKinds_plain _ hs
  unfold passage expectEdge
  simp only [harrow, hseq, leftmostSlot_of_statement hs, decide_false, Bool.false_and, Bool.false_eq_true, if_false]
  split
  · split <;> simp [bind, Except.bind, pure, Except.pure]
  · simp

/-! ## Stacks that agree up to a statement -/

/-- The two stacks agree from their tips to the node, with arbitrary entries above it. -/
inductive Stack.Agree (root : NodeId) : List Value → List Value → Prop
  | here (above above' : List Value) : Agree root (.node root :: above) (.node root :: above')
  | under {st st' : List Value} (v name : Value) : Agree root st st' → Agree root (v :: name :: st) (v :: name :: st')

theorem Stack.Agree.push_links {st st' : List Value} (ha : Stack.Agree root st st') :
    ∀ links : List Path.Link, Stack.Agree root (links.foldl Path.Link.push st) (links.foldl Path.Link.push st') := by
  intro links
  induction links generalizing st st' with
  | nil => exact ha
  | cons l links ih => exact ih (.under l.value l.name ha)

/-- The two lists of ancestors agree from the first to the node, and are all there. -/
inductive Lineage.Agree (root : NodeId) : List Ancestor → List Ancestor → Prop
  | here (name name' : Value) (next : Option Value) (above above' : List Ancestor) :
      Agree root (⟨some root, name, next⟩ :: above) (⟨some root, name', next⟩ :: above')
  | under {as as' : List Ancestor} (n : NodeId) (name : Value) (next : Option Value) : Agree root as as' →
      Agree root (⟨some n, name, next⟩ :: as) (⟨some n, name, next⟩ :: as')

/-- What the standard grammar takes for a node is one. -/
theorem asNode_standard (h : Heap) (v : Value) : Grammar.standard.asNode h v = none ∨
    ∃ n, v = .node n ∧ Grammar.standard.asNode h v = some (some n) ∧ Grammar.standard.isNode h v = true := by
  cases v with
  | node n =>
    by_cases hn : Grammar.standard.isNode h (.node n) = true
    · exact .inr ⟨n, rfl, asNode_node hn, hn⟩
    · exact .inl (by simp [Grammar.asNode, hn])
  | _ => exact .inl rfl

/-- The ancestors of stacks that agree up to a node agree up to it. -/
theorem Stack.Agree.ancestors {st st' : List Value} (ha : Stack.Agree root st st')
    (hn : Grammar.standard.isNode h (.node root) = true) : ∀ next,
    Lineage.Agree root (Stack.ancestors .standard h st next) (Stack.ancestors .standard h st' next) := by
  induction ha with
  | here above above' =>
    intro next
    have hcons : ∀ above, ∃ name as, Stack.ancestors .standard h (.node root :: above) next =
        ⟨some root, name, next⟩ :: as := by
      intro above
      cases above with
      | nil => exact ⟨.null, [], ancestors_root hn next⟩
      | cons name rest => exact ⟨name, Stack.ancestors .standard h rest (some name), ancestors_cons hn name rest next⟩
    obtain ⟨name, as, has⟩ := hcons above
    obtain ⟨name', as', has'⟩ := hcons above'
    rw [has, has']
    exact .here name name' next as as'
  | under v name _ ih =>
    intro next
    rcases asNode_standard h v with hv | ⟨n, -, hv, -⟩
    · simp only [Stack.ancestors, hv, Option.map_none, Option.toList_none, List.nil_append]
      exact ih (some name)
    · simp only [Stack.ancestors, hv, Option.map_some, Option.toList_some, List.singleton_append]
      exact .under n name next (ih (some name))

namespace Lineage.Agree

variable {as as' : List Ancestor}

/-- The nearest ancestors are the same node. -/
theorem head_node (ha : Lineage.Agree root as as') :
    ∃ n, (as.map Ancestor.node)[0]? = some (some n) ∧ (as'.map Ancestor.node)[0]? = some (some n) := by
  cases ha with
  | here => exact ⟨root, rfl, rfl⟩
  | under n => exact ⟨n, rfl, rfl⟩

/-- So are the second ones, unless the nearest is the node up to which the lists agree. -/
theorem second_node {n : NodeId} (ha : Lineage.Agree root as as') (hn : (as.map Ancestor.node)[0]? = some (some n))
    (hne : n ≠ root) : (as.map Ancestor.node)[1]? = (as'.map Ancestor.node)[1]? := by
  cases ha with
  | here => exact absurd (by simpa using hn.symm) hne
  | under m name next hrest =>
    obtain ⟨k, hk, hk'⟩ := hrest.head_node
    simp only [List.map_cons, List.getElem?_cons_succ, hk, hk']

/-- Leading position below a statement is decided at the statement at the latest. -/
theorem leadsFrom_eq (ha : Lineage.Agree root as as') (hs : h.kind (some root) ∈ statementKinds) (b : Bool)
    (n : NodeId) (name : Value) (next : Option Value) :
    leadsFrom h b (⟨some n, name, next⟩ :: as) = leadsFrom h b (⟨some n, name, next⟩ :: as') := by
  induction ha generalizing n name next with
  | here outer outer' inner above above' =>
    simp only [leadsFrom]
    cases hp : passage h n name root inner with
    | error x => rfl
    | ok r =>
      cases r with
      | «open» => exact absurd hp (passage_ne_open hs n name inner)
      | statement | body | closed => rfl
  | under m name' next' _ ih =>
    simp only [leadsFrom]
    cases hp : passage h n name m next' with
    | error x => rfl
    | ok r =>
      cases r with
      | «open» => exact ih m name' next'
      | statement | body | closed => rfl

end Lineage.Agree

/-! ## Verdicts -/

/-- The second ancestor is looked at only if the first is the type `?T`. -/
theorem Site.byKind_grandparent {s : Site} (hp : s.parentKind ≠ .nullableType) (g g' : Option NodeId) :
    s.byKind g = s.byKind g' := by
  unfold Site.byKind
  simp only [hp, if_false]

/-- A statement gets no parentheses, whether it has a parent or not. -/
theorem decide_statement {p : Path} {above : List Value} (hs : isStatementTag (h.node root).tag = true)
    (hg : p.grammar = .standard) (hp : p.stack = .node root :: above) (b : Bool) :
    (p.decide h b).map Verdict.parens = .ok false := by
  have hn : p.grammar.isNode h (.node root) = true := hg ▸ isNode_of_statementTag hs
  have hst : p.grammar.isStatement h root = true := by rw [hg]; exact hs
  have hkind := (statementKinds_plain _ (kind_mem_statementKinds hs)).1
  rw [Path.decide_node hp hn, if_neg fun hx => hkind hx.1]
  cases p.parent h with
  | none => rfl
  | some q =>
    simp only [Path.decideUnder, hst, if_true]
    rfl

/-- What is no node gets no parentheses. -/
theorem decide_notNode {p : Path} {v : Value} {rest : List Value} (hp : p.stack = v :: rest)
    (hv : p.grammar.asNode h v = none) (b : Bool) : p.decide h b = .ok ⟨false, .notNode⟩ := by
  have hvalue : p.value = .ok v := by simp [Path.value, hp]
  unfold Path.decide
  rw [hvalue]
  cases hn : p.node h with
  | none => rfl
  | some n =>
    have hne : v ≠ .node n := by
      rintro rfl
      rw [asNode_node (isNode_of_node hn)] at hv
      cases hv
    simp only [bind, Except.bind, ne_eq, hne, not_false_eq_true, if_true]
    rfl

section Below

variable {p p' : Path} {st st' : List Value} {v name : Value}

theorem lineage_below {n : NodeId} (hg : p.grammar = .standard) (hp : p.stack = .node n :: name :: st)
    (hn : Grammar.standard.isNode h (.node n) = true) :
    p.lineage h = some n :: (Stack.ancestors .standard h st (some name)).map Ancestor.node := by
  rw [lineage_eq p h none, hg, hp, ancestors_cons hn, List.map_cons]

/-- What stands strictly below the statement gets the same verdict by the same rule. -/
theorem Stack.Agree.decide_eq (ha : Stack.Agree root st st') (hs : isStatementTag (h.node root).tag = true)
    (hg : p.grammar = .standard) (hg' : p'.grammar = .standard) (hp : p.stack = v :: name :: st)
    (hp' : p'.stack = v :: name :: st') (b : Bool) : p.decide h b = p'.decide h b := by
  rcases asNode_standard h v with hv | ⟨n, rfl, -, hn⟩
  · rw [decide_notNode hp (hg ▸ hv), decide_notNode hp' (hg' ▸ hv)]
  have hkinds := kind_mem_statementKinds hs
  have hup := ha.ancestors (isNode_of_statementTag hs) (some name)
  obtain ⟨q, hq, hq'⟩ := hup.head_node
  have hlin := lineage_below hg hp hn
  have hlin' := lineage_below hg' hp' hn
  have hparent : p.parent h = some q := by rw [Path.parent_eq, hlin, List.getElem?_cons_succ, hq]; rfl
  have hparent' : p'.parent h = some q := by rw [Path.parent_eq, hlin', List.getElem?_cons_succ, hq']; rfl
  have hname : p.name = p'.name := by simp [Path.name, hp, hp']
  have hleads : ∀ b, p.leads h b = p'.leads h b := by
    intro b
    simp only [Path.leads_eq, hg, hg', hp, hp', Stack.ancestors, asNode_node hn, Option.map_some, Option.toList_some,
      List.singleton_append]
    exact hup.leadsFrom_eq hkinds b n name none
  have hkind : (⟨h, n, q, p'.name⟩ : Site).byKind (p.parent h 1) = (⟨h, n, q, p'.name⟩ : Site).byKind (p'.parent h 1) := by
    by_cases hqr : q = root
    · subst hqr
      exact Site.byKind_grandparent (s := ⟨h, n, q, p'.name⟩) (statementKinds_plain _ hkinds).2.2.2 _ _
    · have hsecond := hup.second_node hq hqr
      have hpass : Path.passedOver (1 + 1) = 2 := by decide
      have hgrand : p.parent h 1 = p'.parent h 1 := by
        simp only [Path.parent, Path.node_eq_lineage, hpass, hlin, hlin', List.getElem?_cons_succ, hsecond]
      rw [hgrand]
  have hunder : p.decideUnder b ⟨h, n, q, p'.name⟩ = p'.decideUnder b ⟨h, n, q, p'.name⟩ := by
    simp only [Path.decideUnder, Path.decideByPlace, hg, hg', hkind, hleads]
  rw [Path.decide_node hp (hg ▸ hn), Path.decide_node hp' (hg' ▸ hn), hparent, hparent', hname]
  simp only [hunder]

end Below

/-- Stacks that agree up to a statement get the same verdict. -/
theorem Stack.Agree.parens_eq {p p' : Path} (ha : Stack.Agree root p.stack p'.stack)
    (hs : isStatementTag (h.node root).tag = true) (hg : p.grammar = .standard) (hg' : p'.grammar = .standard)
    (b : Bool) : (p.decide h b).map Verdict.parens = (p'.decide h b).map Verdict.parens := by
  generalize hp : p.stack = st at ha
  generalize hp' : p'.stack = st' at ha
  cases ha with
  | here above above' => rw [decide_statement hs hg hp, decide_statement hs hg' hp']
  | under v name ha => rw [ha.decide_eq hs hg hg' hp hp']

/-! ## Going down from a statement -/

/-- Going down through names puts on top of the stack what the names lead to. -/
theorem Stack.Agree.descended : ∀ (names : List Value) {p p' : Path} (v : Value),
    Stack.Agree root p.stack p'.stack →
    Stack.Agree root (Path.descended h p v names).stack (Path.descended h p' v names).stack
  | [], _, _, _, ha => ha
  | name :: names, _, _, v, ha => Stack.Agree.descended names (Path.resolve h v name) (.under _ name ha)

theorem Path.descended_grammar (h : Heap) : ∀ (names : List Value) (p : Path) (v : Value),
    (Path.descended h p v names).grammar = p.grammar
  | [], _, _ => rfl
  | _ :: names, _, _ => Path.descended_grammar h names _ _

/-- **The verdict does not depend on anything above the enclosing statement.** With the same links below the same
statement, two paths of the standard grammar get the same verdict or stop in the same way, and by the same rule unless
they stand at the statement itself. So going down from a statement comes to the same verdicts wherever the statement
stands, in particular where it is the root. -/
theorem decide_below_statement (h : Heap) (root : NodeId) (hs : isStatementTag (h.node root).tag = true)
    (p p' : Path) (hg : p.grammar = .standard) (hg' : p'.grammar = .standard) (above above' : List Value) (b : Bool) :
    (∀ links : List Path.Link, p.stack = links.foldl Path.Link.push (.node root :: above) →
      p'.stack = links.foldl Path.Link.push (.node root :: above') →
      (p.decide h b).map Verdict.parens = (p'.decide h b).map Verdict.parens ∧
        (links ≠ [] → p.decide h b = p'.decide h b)) ∧
    ∀ names, p.stack = .node root :: above →
      ((Path.descended h p (.node root) names).decide h b).map Verdict.parens =
        ((Path.descended h (Path.new (.node root)) (.node root) names).decide h b).map Verdict.parens := by
  refine ⟨fun links hp hp' => ⟨?_, fun hne => ?_⟩, fun names hp => ?_⟩
  · have ha : Stack.Agree root p.stack p'.stack := by
      rw [hp, hp']
      exact (Stack.Agree.here above above').push_links links
    exact ha.parens_eq hs hg hg' b
  · obtain ⟨init, l, rfl⟩ := List.eq_nil_or_concat links |>.resolve_left hne
    rw [List.concat_eq_append, List.foldl_append] at hp hp'
    exact ((Stack.Agree.here above above').push_links init).decide_eq hs hg hg' hp hp' b
  · have ha : Stack.Agree root p.stack (Path.new (.node root)).stack := by
      rw [hp]
      exact .here above []
    refine (ha.descended names (.node root)).parens_eq hs ?_ ?_ b
    · rw [Path.descended_grammar, hg]
    · rw [Path.descended_grammar]
      rfl

/-- The statement `(function () {})()` in a program, and an arrow function that has it for its body. -/
def calledStatement : Heap where
  nodes := #[
    { tag := "FunctionExpression" },
    { tag := "CallExpression", fields := .ofEntries [("callee", .node ⟨0⟩)] },
    { tag := "ExpressionStatement", fields := .ofEntries [("expression", .node ⟨1⟩)] },
    { tag := "Program", fields := .ofEntries [("body", .list ⟨0⟩)] },
    { tag := "ArrowFunctionExpression", fields := .ofEntries [("body", .node ⟨2⟩)] }]
  lists := #[[.node ⟨2⟩]]

/-- The way from the statement to the function that it calls. -/
def calledLinks : List Path.Link := [⟨.str "expression", .node ⟨1⟩⟩, ⟨.str "callee", .node ⟨0⟩⟩]

theorem decide_below_statement_called : isStatementTag (calledStatement.node ⟨2⟩).tag = true ∧
    (Path.ofStack (calledLinks.foldl Path.Link.push
        [.node ⟨2⟩, .index 0, .list ⟨0⟩, .str "body", .node ⟨3⟩])).decide calledStatement false =
      (Path.ofStack (calledLinks.foldl Path.Link.push [.node ⟨2⟩, .str "body", .node ⟨4⟩])).decide
        calledStatement false ∧
    ((Path.descended calledStatement (Path.named .null (.node ⟨2⟩)) (.node ⟨2⟩)
        [.str "expression", .str "callee"]).decide calledStatement true).map Verdict.parens =
      ((Path.descended calledStatement (Path.new (.node ⟨2⟩)) (.node ⟨2⟩)
        [.str "expression", .str "callee"]).decide calledStatement true).map Verdict.parens := by
  have hs : isStatementTag (calledStatement.node ⟨2⟩).tag = true := by decide
  refine ⟨hs, ?_, ?_⟩
  · exact ((decide_below_statement calledStatement ⟨2⟩ hs _ _ rfl rfl _ _ false).1 calledLinks rfl rfl).2 (by decide)
  · exact (decide_below_statement calledStatement ⟨2⟩ hs _ (Path.new (.node ⟨2⟩)) rfl rfl [.null] [] true).2 _ rfl

example : ((Path.ofStack (calledLinks.foldl Path.Link.push [.node ⟨2⟩, .str "body", .node ⟨4⟩])).decide
    calledStatement false).toOption = some ⟨true, .leadingToken⟩ := by
  decide

end Bracketing
