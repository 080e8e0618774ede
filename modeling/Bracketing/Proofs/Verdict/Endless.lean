import Bracketing.Proofs.Report.Tour
import Bracketing.Proofs.Tree.Endless
import Bracketing.Proofs.Verdict.Answer

/-!
# Decisions without end

A walk comes to its end on every heap, since it does not enter what it is already inside. A decision on parentheses has
no such guard: below the callee of a construction it searches for a call, and that search can go round in a circle.

- `Path.AwaitsSearch.decide_eq`: where the rules before leave the decision to the search, the verdict is its answer;
- `decide_eq_endless_iff`: nothing else keeps a decision from ending: the rules before the search must leave the callee to
  it, and the search must come to a circle;
- `decision_endless_iff`: so it is at every stack that a walk visits, and so a listing of parentheses ends or not.
-/

namespace Bracketing

open Bracketing.Tree

variable {h : Heap} {p : Path} {s : Site} {b : Bool} {n q : NodeId} {α β : Type}

/-! ## What ends -/

/-- Whatever stops the computation has the property. -/
def StopsWith (P : Stop → Prop) (r : Except Stop α) : Prop := ∀ x, r = .error x → P x

/-- The path and the tree were found to disagree. -/
def Stop.IsBroken (x : Stop) : Prop := ∃ e, x = .broken e

theorem stopsWith_ok {P : Stop → Prop} (a : α) : StopsWith P (.ok a) := by
  intro x hx
  cases hx

theorem stopsWith_broken (e : Invariant) : StopsWith Stop.IsBroken (.error (.broken e) : Except Stop α) := by
  rintro x ⟨⟩
  exact ⟨e, rfl⟩

theorem StopsWith.bind {P : Stop → Prop} {r : Except Stop α} {f : α → Except Stop β} (hr : StopsWith P r)
    (hf : ∀ a, StopsWith P (f a)) : StopsWith P (r >>= f) := by
  cases r with
  | error y =>
    intro x hx
    exact hr x (congrArg Except.error (Except.error.inj hx))
  | ok a => exact hf a

theorem StopsWith.ne_endless {r : Except Stop α} (hr : StopsWith Stop.IsBroken r) : r ≠ .error .endless := by
  intro hx
  obtain ⟨e, he⟩ := hr _ hx
  cases he

theorem expectEdge_stopsWith (parent : NodeId) (slot : String) (child : NodeId) :
    StopsWith Stop.IsBroken (expectEdge h parent slot child) := by
  unfold expectEdge
  split
  · exact stopsWith_ok ()
  · exact stopsWith_broken _

theorem passage_stopsWith (child : NodeId) (name : Value) (parent : NodeId) (next : Option Value) :
    StopsWith Stop.IsBroken (passage h child name parent next) := by
  unfold passage
  repeat' split
  all_goals first
    | exact stopsWith_ok _
    | exact stopsWith_broken _
    | exact (expectEdge_stopsWith _ _ _).bind fun _ => stopsWith_ok _

theorem leadsFrom_stopsWith : ∀ as : List Ancestor, StopsWith Stop.IsBroken (leadsFrom h b as)
  | [] | [_] => stopsWith_ok true
  | child :: parent :: rest => by
    unfold leadsFrom
    split
    · apply (passage_stopsWith _ _ _ _).bind
      intro step
      cases step with
      | «open» => exact leadsFrom_stopsWith (parent :: rest)
      | statement | body | closed => exact stopsWith_ok _
    · exact leadsFrom_stopsWith (parent :: rest)

theorem leads_stopsWith (b : Bool) : StopsWith Stop.IsBroken (p.leads h b) := by
  rw [Path.leads_eq]
  exact leadsFrom_stopsWith _

theorem Site.binaryInBinary_stopsWith : StopsWith Stop.IsBroken s.binaryInBinary := by
  unfold Site.binaryInBinary
  repeat' split
  all_goals first
    | exact stopsWith_ok _
    | exact (expectEdge_stopsWith _ _ _).bind fun _ => stopsWith_ok _

/-- The rules about kinds end, if only with a broken edge. -/
theorem Site.byKind_stopsWith (grandparent : Option NodeId) : StopsWith Stop.IsBroken (s.byKind grandparent) := by
  unfold Site.byKind
  repeat' split
  all_goals first
    | exact stopsWith_ok _
    | exact Site.binaryInBinary_stopsWith.bind fun _ => stopsWith_ok _

/-- What stands before a node in the source is found, unless the root is the absence of a node. -/
theorem hasParens_stopsWith : StopsWith (· ≠ .endless) (p.hasParens h) := by
  have hroot : StopsWith (· ≠ .endless) p.rootValue := by
    unfold Path.rootValue
    split
    · exact stopsWith_ok _
    · rintro x ⟨⟩
      simp
  have hloc : StopsWith (· ≠ .endless) (p.rootLocation h) := by
    apply hroot.bind
    intro v
    split
    · exact stopsWith_ok _
    · rintro x ⟨⟩
      simp
    · exact stopsWith_ok _
  have htoken : StopsWith (· ≠ .endless) (p.previousToken h) := by
    unfold Path.previousToken
    split
    · split
      · exact stopsWith_ok _
      · apply hloc.bind
        intro location
        split <;> exact stopsWith_ok _
    · exact stopsWith_ok _
  exact htoken.bind fun _ => stopsWith_ok _

/-! ## What may not -/

/-- The rules about kinds have nothing to say on a node of the kind that is the callee of a construction, nor is it an
identifier. -/
def Tree.Kind.leftToSearch : Kind → Bool
  | .identifier | .unary | .spreadElement | .spreadProperty | .binary | .logical | .sequence | .numericLiteral
  | .literal | .yield | .await | .assignment | .conditional | .arrowFunction | .unionType | .intersectionType
  | .nullableType | .functionType | .optionalIndexedAccess => false
  | _ => true

theorem Site.byKind_callee_iff (hp : s.parentKind = .new) (hc : s.fills "callee" = true) (hid : s.kind ≠ .identifier)
    (grandparent : Option NodeId) : s.byKind grandparent = .ok none ↔ s.kind.leftToSearch = true := by
  unfold Site.byKind
  cases hk : s.kind with
  | literal => cases s.heap.get s.node "value" <;> simp [Kind.leftToSearch]
  | _ => simp_all [Kind.leftToSearch, Kind.isCallLike]

/-- The decision at the tip is left to the search for a call: the tip is a node, the callee of a construction around it,
and the rules before the search say nothing about it. -/
structure Path.AwaitsSearch (p : Path) (h : Heap) (n q : NodeId) : Prop where
  tip : p.stack.head? = some (.node n)
  isNode : p.grammar.isNode h (.node n) = true
  parent : p.parent h = some q
  construction : h.kind (some q) = .new
  name : p.name = .str "callee"
  callee : h.get q "callee" = .node n
  noStatement : p.grammar.isStatement h n = false
  unmarked : h.parenthesized n = false
  kind : (h.kind (some n)).leftToSearch = true

/-- The node is a call. -/
def isCall (h : Heap) (n : NodeId) : Bool := h.kind (some n) = .call

theorem containsCall_eq_endless_iff : containsCall h n = .error .endless ↔ h.Circles (isCall h) (.node n) := by
  have htest : (fun m => decide (h.kind (some m) = .call)) = isCall h := rfl
  rw [← Heap.search_eq_none_iff, containsCall, Heap.contains, htest]
  cases h.search (isCall h) (.node n) <;> simp

theorem Path.decideByPlace_eq_endless_iff : p.decideByPlace b s = .error .endless ↔
    (s.parentKind = .new ∧ s.fills "callee" = true) ∧ containsCall s.heap s.node = .error .endless := by
  unfold Path.decideByPlace
  by_cases hc : s.parentKind = .new ∧ s.fills "callee" = true
  · rw [if_pos (by simpa using hc)]
    cases containsCall s.heap s.node <;> simp [hc, bind, Except.bind, pure, Except.pure]
  · rw [if_neg (by simpa using hc)]
    simp only [hc, false_and, iff_false]
    apply StopsWith.ne_endless
    split
    · apply (leads_stopsWith _).bind
      intro leads
      cases leads <;> exact stopsWith_ok _
    · exact stopsWith_ok _

theorem Path.decideUnder_eq_endless_iff : p.decideUnder b s = .error .endless ↔
    p.grammar.isStatement s.heap s.node = false ∧ s.heap.parenthesized s.node = false ∧
      s.kind.leftToSearch = true ∧ (s.parentKind = .new ∧ s.fills "callee" = true) ∧
      containsCall s.heap s.node = .error .endless := by
  by_cases hopen : p.grammar.isStatement s.heap s.node = false ∧ s.kind ≠ .identifier ∧
      s.parentKind ≠ .parenthesized ∧ s.heap.parenthesized s.node = false
  · obtain ⟨hst, hid, hpar, hmark⟩ := hopen
    rw [Path.decideUnder_eq hst hid hpar hmark]
    constructor
    · intro he
      cases hk : s.byKind (p.parent s.heap 1) with
      | error x =>
        rw [hk] at he
        exact absurd (hk.trans (congrArg Except.error (Except.error.inj he))) (Site.byKind_stopsWith _).ne_endless
      | ok r =>
        rw [hk] at he
        cases r with
        | some parens => cases he
        | none =>
          obtain ⟨hc, hs⟩ := Path.decideByPlace_eq_endless_iff.1 he
          exact ⟨hst, hmark, (Site.byKind_callee_iff hc.1 hc.2 hid _).1 hk, hc, hs⟩
    · rintro ⟨-, -, hk, hc, hs⟩
      rw [(Site.byKind_callee_iff hc.1 hc.2 hid _).2 hk]
      exact Path.decideByPlace_eq_endless_iff.2 ⟨hc, hs⟩
  · constructor
    · intro he
      unfold Path.decideUnder at he
      -- one of the first rules gives its verdict
      repeat' split at he
      all_goals first
        | cases he
        | simp_all
    · rintro ⟨hst, hmark, hk, hc, -⟩
      refine absurd ⟨hst, ?_, ?_, hmark⟩ hopen
      · rintro hid
        rw [hid] at hk
        cases hk
      · simp [hc.1]

/-- A path has no tip, or stands at a node, or there is nothing to decide. -/
theorem Path.decide_cases (p : Path) (h : Heap) : p.stack = [] ∨
    (∃ n rest, p.stack = .node n :: rest ∧ p.grammar.isNode h (.node n) = true) ∨
    ∀ b, p.decide h b = .ok ⟨false, .notNode⟩ := by
  cases hs : p.stack with
  | nil => exact .inl rfl
  | cons tip rest =>
    right
    have hvalue : p.value = .ok tip := by simp [Path.value, hs]
    cases hn : p.node h with
    | none => exact .inr fun b => by simp [Path.decide, hvalue, hn, bind, Except.bind, pure, Except.pure]
    | some n =>
      by_cases htip : tip = .node n
      · subst htip
        exact .inl ⟨n, rest, rfl, isNode_of_node hn⟩
      · exact .inr fun b => by simp [Path.decide, hvalue, hn, htip, bind, Except.bind, pure, Except.pure]

theorem Path.decide_nil (hs : p.stack = []) : p.decide h b = .error (.broken .noRoot) := by
  simp [Path.decide, Path.value, hs, bind, Except.bind]

theorem Path.AwaitsSearch.kind_ne (ha : p.AwaitsSearch h n q) {k : Kind} (hk : k.leftToSearch = false) :
    h.kind (some n) ≠ k := by
  rintro rfl
  rw [ha.kind] at hk
  cases hk

/-- Where the decision is left to the search for a call, its answer is the verdict. -/
theorem Path.AwaitsSearch.decide_eq (ha : p.AwaitsSearch h n q) (b : Bool) :
    p.decide h b = (containsCall h n).map (⟨·, .newCallee⟩) := by
  obtain ⟨rest, hs⟩ := List.head?_eq_some_iff.1 ha.tip
  have hpattern : ¬ (h.kind (some n) = .assignment ∧ h.kind (h.child? n "left") = .objectPattern) :=
    fun hx => ha.kind_ne rfl hx.1
  rw [Path.decide_node hs ha.isNode, if_neg hpattern, ha.parent]
  -- what is left is a matter of the site alone
  have hid : (⟨h, n, q, p.name⟩ : Site).kind ≠ .identifier := ha.kind_ne rfl
  have hnew : (⟨h, n, q, p.name⟩ : Site).parentKind = .new := ha.construction
  have hfills : (⟨h, n, q, p.name⟩ : Site).fills "callee" = true := by
    simp [Site.fills, Site.isUnder, ha.name, ha.callee]
  have hsilent := (Site.byKind_callee_iff hnew hfills hid (p.parent h 1)).2 ha.kind
  have hplace : p.decideByPlace b ⟨h, n, q, p.name⟩ = (containsCall h n).map (⟨·, .newCallee⟩) := by
    rw [Path.decideByPlace, if_pos (by simp [hnew, hfills])]
    cases containsCall h n <;> rfl
  refine (Path.decideUnder_eq ha.noStatement hid (by simp [hnew]) ha.unmarked).trans ?_
  rw [hsilent]
  exact hplace

/-- A decision has no end just if it is left to the search for a call and that search comes to a circle. -/
theorem decide_eq_endless_iff : p.decide h b = .error .endless ↔
    ∃ n q, p.AwaitsSearch h n q ∧ h.Circles (isCall h) (.node n) := by
  constructor
  · intro he
    obtain hnil | ⟨n, rest, hs, hn⟩ | hnone := p.decide_cases h
    · rw [Path.decide_nil hnil] at he
      cases he
    on_goal 2 =>
      rw [hnone] at he
      cases he
    rw [Path.decide_node hs hn] at he
    split at he
    · cases he
    · cases hq : p.parent h with
      | none => rw [hq] at he; cases he
      | some q =>
        rw [hq] at he
        obtain ⟨hst, hmark, hk, ⟨hnew, hfills⟩, hc⟩ := Path.decideUnder_eq_endless_iff.1 he
        simp only [Site.fills, Site.isUnder, Bool.and_eq_true, decide_eq_true_eq] at hfills
        exact ⟨n, q, ⟨by simp [hs], hn, hq, hnew, hfills.1, hfills.2, hst, hmark, hk⟩,
          containsCall_eq_endless_iff.1 hc⟩
  · rintro ⟨n, q, ha, hc⟩
    rw [ha.decide_eq, containsCall_eq_endless_iff.2 hc]
    rfl

/-- What can stop a decision: a broken edge, or a search without end. -/
def Stop.OfDecision (x : Stop) : Prop := x.IsBroken ∨ x = .endless

theorem StopsWith.ofDecision {r : Except Stop α} (hr : StopsWith Stop.IsBroken r) : StopsWith Stop.OfDecision r :=
  fun x hx => .inl (hr x hx)

theorem decideByPlace_stopsWith : StopsWith Stop.OfDecision (p.decideByPlace b s) := by
  have hcall : StopsWith Stop.OfDecision (containsCall s.heap s.node) :=
    fun x hx => .inr (eq_endless_of_containsCall hx)
  have hleads : StopsWith Stop.OfDecision (p.leads s.heap (s.kind ≠ .objectExpression)) :=
    (leads_stopsWith _).ofDecision
  unfold Path.decideByPlace
  split
  · exact hcall.bind fun _ => stopsWith_ok _
  split
  · apply hleads.bind
    intro leads
    cases leads <;> exact stopsWith_ok _
  · exact stopsWith_ok _

theorem decideUnder_stopsWith : StopsWith Stop.OfDecision (p.decideUnder b s) := by
  unfold Path.decideUnder
  repeat' split
  all_goals try exact stopsWith_ok _
  apply (Site.byKind_stopsWith _).ofDecision.bind
  intro r
  cases r with
  | some parens => exact stopsWith_ok _
  | none => exact decideByPlace_stopsWith

theorem decide_stopsWith : StopsWith Stop.OfDecision (p.decide h b) := by
  obtain hnil | ⟨n, rest, hs, hn⟩ | hnone := p.decide_cases h
  · rw [Path.decide_nil hnil]
    exact (stopsWith_broken _).ofDecision
  · rw [Path.decide_node hs hn]
    split
    · exact stopsWith_ok _
    · cases p.parent h with
      | none => exact stopsWith_ok _
      | some q => exact decideUnder_stopsWith
  · rw [hnone]
    exact stopsWith_ok _

/-! ## Walks and listings -/

/-- An entry of the listing has no end just if the decision there has none. -/
theorem entryAt_eq_endless_iff {all e : Bool} : Listing.entryAt all e p h = .error .endless ↔
    p.decide h false = .error .endless := by
  constructor
  · intro he
    by_contra hno
    have hdecide : ∀ b, StopsWith (· ≠ .endless) (p.decide h b) := by
      rintro b x hx rfl
      exact hno (decide_eq_endless_iff.2 (decide_eq_endless_iff.1 hx))
    have hentry : StopsWith (· ≠ .endless) (Listing.entryAt all e p h) := by
      rw [Listing.entryAt_eq]
      apply (hdecide false).bind
      intro first
      apply StopsWith.bind
      · cases e
        · exact stopsWith_ok first
        · exact hdecide true
      · intro verdict
        split
        · exact stopsWith_ok none
        · exact hasParens_stopsWith.bind fun _ => stopsWith_ok _
    exact hentry _ he rfl
  · intro he
    rw [Listing.entryAt_eq, he]
    rfl

/-- A walk comes to its end at every stack it visits. -/
theorem run_visits (h : Heap) (root : Value) (o : Path.Options) :
    Tour.run h (.new root o) (fun q _ => .ok (some q.stack)) =
      (.done (), { heap := h, path := .new root o, rows := (Path.new root o).visits h }) := by
  have hs := Path.stack_new_ne_nil root o
  have hok : ∀ st ∈ (Path.new root o).visits h,
      (fun (q : Path) (_ : Heap) => (.ok (some q.stack) : Except Stop _)) ((Path.new root o).withStack st) h =
        .ok (some st) := fun _ _ => rfl
  rw [Tour.run_eq hs, Tour.gather_of_ok hok]
  simp

theorem parens_eq_endless_iff {root : NodeId} {all e : Bool} :
    Listing.parens h root all e = .error .endless ↔
      ∃ before st after, (Path.new (.node root)).visits h = before ++ st :: after ∧
        (∀ x ∈ before, ∃ r, Listing.entryAt all e ((Path.new (.node root)).withStack x) h = .ok r) ∧
        ((Path.new (.node root)).withStack st).decide h false = .error .endless := by
  have hs := Path.stack_new_ne_nil (.node root) {}
  unfold Listing.parens
  constructor
  · intro he
    obtain ⟨before, st, after, hv, hok, hst⟩ := Tour.exists_of_report_error hs he
    exact ⟨before, st, after, hv, hok, entryAt_eq_endless_iff.1 hst⟩
  · rintro ⟨before, st, after, hv, hok, hst⟩
    exact Tour.report_of_error hs hv hok (entryAt_eq_endless_iff.2 hst)

/-- **A decision ends unless it searches a circle.** A walk comes to its end on every heap, for every grammar. At each
stack that it visits, and for either kind of caller, the decision has no end just if the tip is the callee of a
construction, none of the rules before leaves the search for a call aside, and that search comes to a circle: then no
depth is enough for it, and the tip holds something that holds itself. A listing of parentheses has no end just if it
comes to such a stack. -/
theorem decision_endless_iff (h : Heap) (root : Value) (o : Path.Options) :
    Tour.run h (.new root o) (fun q _ => .ok (some q.stack)) =
      (.done (), { heap := h, path := .new root o, rows := (Path.new root o).visits h }) ∧
    (∀ st ∈ (Path.new root o).visits h, ∀ b, ((Path.new root o).withStack st).decide h b = .error .endless ↔
      ∃ n q, ((Path.new root o).withStack st).AwaitsSearch h n q ∧ h.Circles (isCall h) (.node n)) ∧
    (∀ n, h.Circles (isCall h) (.node n) →
      (∀ depth, h.inspectWithin (Heap.probe (isCall h)) depth (.node n) {} = none) ∧ ¬ h.Acyclic (.node n)) ∧
    ∀ top all e, Listing.parens h top all e = .error .endless ↔
      ∃ before st after, (Path.new (.node top)).visits h = before ++ st :: after ∧
        (∀ x ∈ before, ∃ r, Listing.entryAt all e ((Path.new (.node top)).withStack x) h = .ok r) ∧
        ∃ n q, ((Path.new (.node top)).withStack st).AwaitsSearch h n q ∧ h.Circles (isCall h) (.node n) := by
  refine ⟨run_visits h root o, ?_, ?_, ?_⟩
  · intro st _ b
    exact decide_eq_endless_iff
  · intro n hn
    exact ⟨hn.inspectWithin_eq_none, hn.not_acyclic⟩
  · intro top all e
    simp only [parens_eq_endless_iff, decide_eq_endless_iff]

/-- The construction `new a[…]`, where the property is the member access again. -/
def selfProperty : Heap where
  nodes := #[
    { tag := "NewExpression", fields := .ofEntries [("callee", .node ⟨1⟩)] },
    { tag := "MemberExpression", fields := .ofEntries [("object", .node ⟨2⟩), ("property", .node ⟨1⟩)] },
    { tag := "Identifier", fields := .ofEntries [("name", .str "a")] }]

theorem decision_endless_iff_selfProperty :
    (Path.ofStack [.node ⟨1⟩, .str "callee", .node ⟨0⟩]).AwaitsSearch selfProperty ⟨1⟩ ⟨0⟩ ∧
    (∀ depth, selfProperty.inspectWithin (Heap.probe (isCall selfProperty)) depth (.node ⟨1⟩) {} = none) ∧
    ¬ selfProperty.Acyclic (.node ⟨1⟩) := by
  obtain ⟨-, hdecide, hcircle, -⟩ := decision_endless_iff selfProperty (.node ⟨0⟩) {}
  obtain ⟨n, q, ha, hn⟩ := (hdecide [.node ⟨1⟩, .str "callee", .node ⟨0⟩] (by decide) false).1 (by decide)
  obtain rfl : ⟨1⟩ = n := by simpa [Path.withStack] using ha.tip
  have hparent : (Path.ofStack [.node ⟨1⟩, .str "callee", .node ⟨0⟩]).parent selfProperty = some ⟨0⟩ := by decide
  obtain rfl : ⟨0⟩ = q := Option.some.inj (hparent.symm.trans ha.parent)
  exact ⟨ha, hcircle ⟨1⟩ hn⟩

/-- A walk may come to its end where a decision at a stack that it visits, and so a listing, does not. -/
theorem listing_endless_selfProperty :
    (Tour.run selfProperty (.new (.node ⟨0⟩)) (fun q _ => .ok (some q.stack))).1 = .done () ∧
    [.node ⟨1⟩, .str "callee", .node ⟨0⟩] ∈ (Path.new (.node ⟨0⟩)).visits selfProperty ∧
    (Path.ofStack [.node ⟨1⟩, .str "callee", .node ⟨0⟩]).decide selfProperty false = .error .endless ∧
    Listing.parens selfProperty ⟨0⟩ false false = .error .endless := by
  refine ⟨by rw [run_visits], by decide, by decide, ?_⟩
  apply parens_eq_endless_iff.2
  refine ⟨[[.node ⟨0⟩]], [.node ⟨1⟩, .str "callee", .node ⟨0⟩],
    [[.node ⟨2⟩, .str "object", .node ⟨1⟩, .str "callee", .node ⟨0⟩]], by decide, ?_, by decide⟩
  intro x hx
  rw [List.mem_singleton.1 hx]
  exact ⟨none, by decide⟩

end Bracketing
