import Bracketing.Proofs.Tree.Search
import Bracketing.Proofs.Verdict.Endless

/-!
# The callee of a construction

The arguments of a call in the callee of a construction would be read as those of the construction, so the rule for
callees searches all of the callee for a call. It is the only rule that looks further down than one level.

- `Path.AtCallee.awaitsSearch`: the rules before it leave functions, classes, member accesses and calls without a mark to
  the search;
- `search_along_preorder`: a search of an acyclic value tests its preorder up to the first node that passes, and such a
  callee needs parentheses just if a call is at or below it.
-/

namespace Bracketing

open Bracketing.Tree Bracketing.Tree.Heap

variable {h : Heap} {p : Path} {n q : NodeId}

/-- The path ends at the callee of a construction. -/
structure Path.AtCallee (p : Path) (h : Heap) (n q : NodeId) : Prop where
  tip : p.stack.head? = some (.node n)
  name : p.name = .str "callee"
  parent : p.parent h = some q
  construction : h.kind (some q) = .new
  callee : h.get q "callee" = .node n

/-- The grammar takes the node for one, and for no statement. -/
def Tree.Grammar.AsExpression (g : Grammar) (h : Heap) (n : NodeId) : Prop :=
  g.isNode h (.node n) = true ∧ g.isStatement h n = false

/-- Functions, classes, member accesses and calls: as callees, the rules about kinds leave them to the search. -/
def searchedKinds : List Kind := [.functionExpression, .classExpression, .member, .call]

theorem asExpression_standard (hk : h.kind (some n) ∈ searchedKinds) : Grammar.standard.AsExpression h n := by
  have hplain : ∀ k ∈ searchedKinds, k ≠ .other ∧ k.tag ≠ "" ∧ isStatementTag k.tag = false := by decide
  obtain ⟨hother, htag, hst⟩ := hplain _ hk
  have hn := tag_of_kind rfl hother
  constructor
  · simpa [Grammar.standard, hn] using htag
  · simpa [Grammar.standard, hn] using hst

theorem Path.AtCallee.awaitsSearch (hp : p.AtCallee h n q) (hg : p.grammar.AsExpression h n)
    (hk : h.kind (some n) ∈ searchedKinds) (hm : h.parenthesized n = false) : p.AwaitsSearch h n q where
  tip := hp.tip
  isNode := hg.1
  parent := hp.parent
  construction := hp.construction
  name := hp.name
  callee := hp.callee
  noStatement := hg.2
  unmarked := hm
  kind := by
    have hleft : ∀ k ∈ searchedKinds, k.leftToSearch = true := by decide
    exact hleft _ hk

/-- The verdict on such a callee is whether a call is at or below it. -/
theorem Path.AtCallee.exists_decide (hp : p.AtCallee h n q) (hg : p.grammar = .standard ∨ p.grammar.AsExpression h n)
    (hk : h.kind (some n) ∈ searchedKinds) (hm : h.parenthesized n = false) (ha : h.Acyclic (.node n)) :
    ∃ found, (∀ b, p.decide h b = .ok ⟨found, .newCallee⟩) ∧
      (found = true ↔ ∃ m, h.Below (.node n) (.node m) ∧ h.kind (some m) = .call) := by
  have hexpr : p.grammar.AsExpression h n := by
    rcases hg with hg | hg
    · rw [hg]
      exact asExpression_standard hk
    · exact hg
  obtain ⟨found, hfound, hiff⟩ := exists_containsCall ha
  refine ⟨found, fun b => ?_, hiff⟩
  rw [(hp.awaitsSearch hexpr hk hm).decide_eq b, hfound]
  rfl

/-- A search of an acyclic value finds a node just if its preorder has one that passes. It tests the nodes of the
preorder up to the first that passes and no others, and a test that keeps a state finds it as if it were asked along
the preorder; the count is the length of the preorder. So a function, class, member access or call without a mark, as
the callee of a construction, needs parentheses just if a call is at or below it. -/
theorem search_along_preorder (h : Heap) :
    (∀ v, h.Acyclic v → ∃ ns, h.preorder v = some ns ∧ (∀ n, n ∈ ns ↔ h.Below v (.node n)) ∧
      h.count v = some ns.length ∧
      (∀ test : NodeId → Bool, h.contains test v = some (ns.any test) ∧
        h.searchWith (noting test) v [] = some (ns.any test, ns.take (ns.findIdx test + 1)) ∧
        h.search test v = (h.searchWith (noting test) v []).map fun r => ⟨r.1, r.2.length⟩) ∧
      ∀ (σ : Type) (test : NodeId → StateM σ Bool) (s : σ),
        h.searchWith test v s = some (Id.run ((ns.anyM test).run s))) ∧
    ∀ (p : Path) (n q : NodeId), p.AtCallee h n q → (p.grammar = .standard ∨ p.grammar.AsExpression h n) →
      h.kind (some n) ∈ [.functionExpression, .classExpression, .member, .call] → h.parenthesized n = false →
      h.Acyclic (.node n) → ∃ found, (∀ b, p.decide h b = .ok ⟨found, .newCallee⟩) ∧
        (found = true ↔ ∃ m, h.Below (.node n) (.node m) ∧ h.kind (some m) = .call) := by
  refine ⟨fun v hv => ?_, fun p n q hp hg hk hm ha => hp.exists_decide hg hk hm ha⟩
  obtain ⟨ns, hns, hmem, -⟩ := hv.exists_preorder
  refine ⟨ns, hns, hmem, by rw [count_eq_length, hns]; rfl, fun test => ?_, fun σ => searchWith_eq_anyM hv hns⟩
  exact ⟨contains_eq_any hv hns test, searchWith_noting hv hns test, search_eq_searchWith h test v⟩

/-- The construction `new a[f(b)](c)`. -/
def computedCallee : Heap where
  nodes := #[
    { tag := "Identifier", fields := .ofEntries [("name", .str "a")] },
    { tag := "Identifier", fields := .ofEntries [("name", .str "f")] },
    { tag := "Identifier", fields := .ofEntries [("name", .str "b")] },
    { tag := "Identifier", fields := .ofEntries [("name", .str "c")] },
    { tag := "CallExpression", fields := .ofEntries [("callee", .node ⟨1⟩), ("arguments", .list ⟨0⟩)] },
    { tag := "MemberExpression",
      fields := .ofEntries [("object", .node ⟨0⟩), ("property", .node ⟨4⟩), ("computed", .bool true)] },
    { tag := "NewExpression", fields := .ofEntries [("callee", .node ⟨5⟩), ("arguments", .list ⟨1⟩)] }]
  lists := #[[.node ⟨2⟩], [.null, .node ⟨3⟩]]

/-- Lists stand above the identifiers they hold and below the nodes that hold them. -/
def calleeLevel : Value → Nat
  | .node n => if n.index < 4 then 1 else n.index
  | .list _ => 2
  | _ => 0

/-- The whole construction has seven nodes, and the search for a call tests the first four of them; the callee needs
parentheses. -/
theorem search_along_preorder_computed :
    computedCallee.preorder (.node ⟨6⟩) = some [⟨6⟩, ⟨5⟩, ⟨0⟩, ⟨4⟩, ⟨1⟩, ⟨2⟩, ⟨3⟩] ∧
    computedCallee.searchWith (noting (isCall computedCallee)) (.node ⟨6⟩) [] = some (true, [⟨6⟩, ⟨5⟩, ⟨0⟩, ⟨4⟩]) ∧
    computedCallee.search (isCall computedCallee) (.node ⟨6⟩) = some ⟨true, 4⟩ ∧
    computedCallee.count (.node ⟨6⟩) = some 7 ∧
    (Path.ofStack [.node ⟨5⟩, .str "callee", .node ⟨6⟩]).decide computedCallee false = .ok ⟨true, .newCallee⟩ := by
  have ha : ∀ v, computedCallee.Acyclic v := acyclic_of_measure calleeLevel (by decide) (by decide)
  obtain ⟨hsearch, hcallee⟩ := search_along_preorder computedCallee
  obtain ⟨ns, hns, -, hcount, htest, -⟩ := hsearch (.node ⟨6⟩) (ha _)
  have hlisted : computedCallee.preorder (.node ⟨6⟩) = some [⟨6⟩, ⟨5⟩, ⟨0⟩, ⟨4⟩, ⟨1⟩, ⟨2⟩, ⟨3⟩] := by decide
  obtain rfl := Option.some.inj (hns.symm.trans hlisted)
  obtain ⟨-, hnoted, hplain⟩ := htest (isCall computedCallee)
  have hfirst : computedCallee.searchWith (noting (isCall computedCallee)) (.node ⟨6⟩) [] =
      some (true, [⟨6⟩, ⟨5⟩, ⟨0⟩, ⟨4⟩]) := hnoted.trans (by decide)
  have hp : (Path.ofStack [.node ⟨5⟩, .str "callee", .node ⟨6⟩]).AtCallee computedCallee ⟨5⟩ ⟨6⟩ :=
    ⟨rfl, rfl, by decide, by decide, by decide⟩
  obtain ⟨found, hdecide, hfound⟩ := hcallee _ _ _ hp (.inl rfl) (by decide) (by decide) (ha _)
  have hcall : found = true :=
    hfound.2 ⟨⟨4⟩, .single (show _ ∈ computedCallee.members (.node ⟨5⟩) by decide), by decide⟩
  subst hcall
  exact ⟨hlisted, hfirst, by rw [hplain, hfirst]; rfl, hcount, hdecide false⟩

end Bracketing
