import Bracketing.Proofs.Verdict.Enclosing
import Bracketing.Proofs.Verdict.Leading

/-!
# The chain of leftmost parts

Leading position is looked up along a path that may say anything: nodes, lists, maps and other values in any order,
whether or not the tree holds them so. What is found is said here by positions on the stack, without going up it.

* **Rungs** (`Stack.rungs`): a node of the stack and the next node towards the root, with the name of the lower one and
  the entry that follows the upper one.
* **One rung** (`Rung.passage_eq`): a step up is open if the lower node is what the upper one prints first, decides at
  statements and arrow bodies, and is closed otherwise. It stops if it is open or decides and the tree does not hold the
  rung.
* **All rungs** (`judge_of_broken`, `judge_of_not_broken`): the steps follow the rungs from the tip on as long as they
  are open.
* **The nodes of a stack** (`ancestors_eq_places`): going up the stack meets the nodes at the even positions, each with
  the entries around it.

`leads_along_chain` puts them together.
-/

namespace Bracketing

open Bracketing.Tree

variable {h : Heap}

/-! ## Rungs -/

/-- Two nodes of a stack with no node between them: the lower one, its name, the upper one and the entry that follows
the upper one. -/
structure Rung where
  child : NodeId
  name : Value
  parent : NodeId
  next : Option Value
  deriving DecidableEq, Repr

namespace Rung

/-- The lower node is what the upper one prints first. -/
def transparent (h : Heap) (r : Rung) : Bool :=
  (leftmostSlot? h r.parent).any (r.name = .str ·) ||
    (h.kind (some r.parent) = .sequence && r.name = .index 0 && r.next = some (.str "expressions"))

/-- The lower node is the expression of a statement or the body of an arrow function. -/
def deciding (h : Heap) (r : Rung) : Bool :=
  (h.kind (some r.parent) = .expressionStatement && r.name = .str "expression") ||
    (h.kind (some r.parent) = .arrowFunction && r.name = .str "body")

/-- The tree holds the lower node in the upper one: as the first expression of a sequence, or under its name. -/
def held (h : Heap) (r : Rung) : Bool :=
  if h.kind (some r.parent) = .sequence then (h.elements r.parent "expressions").head? = some (.node r.child)
  else
    match r.name with
    | .str slot => h.get r.parent slot = .node r.child
    | _ => false

/-- What is broken if the tree does not hold the rung. -/
def breach (h : Heap) (r : Rung) : Invariant :=
  if h.kind (some r.parent) = .sequence then .notFirst h r.parent
  else
    match r.name with
    | .str slot => .notUnder h r.parent slot
    | _ => .noRoot

/-- What a rung lets through, if the tree holds it. -/
def passed (h : Heap) (r : Rung) : Passage :=
  if r.transparent h then .open
  else if r.deciding h then if h.kind (some r.parent) = .expressionStatement then .statement else .body
  else .closed

theorem breach_kind {r : Rung} (hr : r.transparent h = true ∨ r.deciding h = true) : (r.breach h).kind = .edge := by
  unfold breach
  split
  · rfl
  · rename_i hs
    obtain ⟨slot, hslot⟩ : ∃ slot, r.name = .str slot := by
      rcases hr with hr | hr
      · rcases Bool.or_eq_true_iff.1 hr with hr | hr
        · obtain ⟨slot, -, hn⟩ := (Option.any_eq_true _ _).1 hr
          exact ⟨slot, by simpa using hn⟩
        · simp [hs] at hr
      · rcases Bool.or_eq_true_iff.1 hr with hr | hr
        · exact ⟨"expression", by simp_all⟩
        · exact ⟨"body", by simp_all⟩
    simp [hslot, Invariant.notUnder]

/-- A slot that is insisted on. -/
theorem expectEdge_bind {r : Rung} {slot : String} (hk : h.kind (some r.parent) ≠ .sequence) (hn : r.name = .str slot)
    (x : Passage) : (do expectEdge h r.parent slot r.child; return x : Except Stop Passage) =
      if r.held h then .ok x else .error (.broken (r.breach h)) := by
  simp only [held, breach, hk, hn, if_false, expectEdge, decide_eq_true_eq]
  split <;> rfl

/-- One step up: the rungs that are open or decide have to be held. -/
theorem passage_eq (r : Rung) : passage h r.child r.name r.parent r.next =
    if (r.transparent h || r.deciding h) && !r.held h then .error (.broken (r.breach h)) else .ok (r.passed h) := by
  unfold passage
  split
  · rename_i hx
    simp only [Bool.and_eq_true, decide_eq_true_eq] at hx
    rw [expectEdge_bind (by simp [hx.1]) hx.2]
    simp [transparent, deciding, passed, leftmostSlot?, hx.1, hx.2]
    cases r.held h <;> rfl
  split
  · rename_i hx
    simp only [Bool.and_eq_true, decide_eq_true_eq] at hx
    rw [expectEdge_bind (by simp [hx.1]) hx.2]
    simp [transparent, deciding, passed, leftmostSlot?, hx.1, hx.2]
    cases r.held h <;> rfl
  rename_i hstatement hbody
  have hd : r.deciding h = false := by simp only [deciding, hstatement, hbody, Bool.or_self]
  split
  · rename_i hx
    simp only [Bool.and_eq_true, decide_eq_true_eq] at hx
    by_cases hn : r.next = some (.str "expressions")
    · simp [hn, hd, transparent, passed, held, breach, leftmostSlot?, hx.1, hx.2]
    · simp [hn, hd, transparent, passed, leftmostSlot?, hx.1, hx.2]
  · rename_i hfirst
    have ht : r.transparent h = (leftmostSlot? h r.parent).any (r.name = .str ·) := by
      simp only [transparent, hfirst, Bool.false_and, Bool.or_false]
    cases hslot : leftmostSlot? h r.parent with
    | none => simp [ht, hd, hslot, passed]
    | some slot =>
      have hk : h.kind (some r.parent) ≠ .sequence := fun hk => by simp [leftmostSlot?, hk] at hslot
      by_cases hn : r.name = .str slot
      · simp only [hn, if_true]
        rw [expectEdge_bind hk hn]
        cases r.held h <;> simp [ht, hslot, hn, passed]
      · simp [ht, hd, hslot, hn, passed]

end Rung

/-! ## All rungs -/

/-- The answer of the steps up along the rungs, from the tip on. -/
def judge (h : Heap) (onlyStatement : Bool) : List Rung → Except Stop Bool
  | [] => .ok true
  | r :: rs => (passage h r.child r.name r.parent r.next).bind (Passage.lead onlyStatement (judge h onlyStatement rs))

namespace Chain

/-- The first rung from the tip at which the lower node is not what the upper one prints first. -/
def first? (h : Heap) (rs : List Rung) : Option Rung := rs.find? (!·.transparent h)

/-- A rung that has to be held is not: an open one before the first that is not open, or that one if it decides. -/
def Broken (h : Heap) (rs : List Rung) : Prop :=
  (∃ r ∈ rs.takeWhile (·.transparent h), r.held h = false) ∨
    ∃ r ∈ first? h rs, r.deciding h = true ∧ r.held h = false

instance (h : Heap) (rs : List Rung) : Decidable (Broken h rs) := inferInstanceAs (Decidable (_ ∨ _))

/-- What a chain whose rungs are held answers: it leads if all rungs are open or the first other one is that of a
statement or, unless `onlyStatement`, of the body of an arrow function. -/
def answer (h : Heap) (onlyStatement : Bool) (rs : List Rung) : Bool :=
  match first? h rs with
  | none => true
  | some r => r.deciding h && (h.kind (some r.parent) = .expressionStatement || !onlyStatement)

theorem first?_of_transparent {r : Rung} (hr : r.transparent h = true) (rs : List Rung) :
    first? h (r :: rs) = first? h rs := by
  simp [first?, hr]

theorem first?_of_not_transparent {r : Rung} (hr : r.transparent h = false) (rs : List Rung) :
    first? h (r :: rs) = some r := by
  simp [first?, hr]

/-- An open rung breaks the chain if it is not held; otherwise the rest of the chain decides. -/
theorem broken_of_transparent {r : Rung} (hr : r.transparent h = true) (rs : List Rung) :
    Broken h (r :: rs) ↔ r.held h = false ∨ Broken h rs := by
  simp only [Broken, List.takeWhile_cons_of_pos hr, first?_of_transparent hr, List.mem_cons, exists_eq_or_imp, or_assoc]

/-- A rung that is not open breaks the chain if it decides and is not held. -/
theorem broken_of_not_transparent {r : Rung} (hr : r.transparent h = false) (rs : List Rung) :
    Broken h (r :: rs) ↔ r.deciding h = true ∧ r.held h = false := by
  simp [Broken, List.takeWhile_cons_of_neg, first?_of_not_transparent hr, hr]

end Chain

/-- Steps along a broken chain stop at an edge that the tree does not have. -/
theorem judge_of_broken (b : Bool) {rs : List Rung} (hb : Chain.Broken h rs) :
    ∃ i, judge h b rs = .error (.broken i) ∧ i.kind = .edge := by
  -- an open rung passes the question on, any other ends it
  induction rs with
  | nil => simp [Chain.Broken, Chain.first?] at hb
  | cons r rs ih =>
    rw [judge, r.passage_eq]
    cases ht : r.transparent h with
    | true =>
      cases hr : r.held h with
      | false => exact ⟨_, rfl, Rung.breach_kind (.inl ht)⟩
      | true =>
        obtain ⟨i, hi, hk⟩ := ih (((Chain.broken_of_transparent ht rs).1 hb).resolve_left (by simp [hr]))
        refine ⟨i, ?_, hk⟩
        simpa [Rung.passed, ht, Except.bind, Passage.lead] using hi
    | false =>
      obtain ⟨hd, hr⟩ := (Chain.broken_of_not_transparent ht rs).1 hb
      refine ⟨r.breach h, ?_, Rung.breach_kind (.inr hd)⟩
      rw [hd, hr]
      rfl

/-- Steps along a chain that is not broken give its answer. -/
theorem judge_of_not_broken (b : Bool) {rs : List Rung} (hb : ¬ Chain.Broken h rs) :
    judge h b rs = .ok (Chain.answer h b rs) := by
  induction rs with
  | nil => rfl
  | cons r rs ih =>
    rw [judge, r.passage_eq, Chain.answer]
    cases ht : r.transparent h with
    | true =>
      rw [Chain.broken_of_transparent ht, not_or] at hb
      rw [Chain.first?_of_transparent ht, ← Chain.answer, ← ih hb.2]
      simp [hb.1, Rung.passed, ht, Except.bind, Passage.lead]
    | false =>
      rw [Chain.broken_of_not_transparent ht, not_and] at hb
      rw [Chain.first?_of_not_transparent ht]
      cases hd : r.deciding h with
      | false => simp [Rung.passed, ht, hd, Except.bind, Passage.lead]
      | true =>
        by_cases hk : h.kind (some r.parent) = .expressionStatement <;>
          simp [Rung.passed, ht, hd, hb hd, hk, Except.bind, Passage.lead]

/-! ## The nodes of a stack -/

namespace Stack

/-- The nodes among the values of a stack with their positions, counted from the tip. Values stand at the even ones. -/
def places (h : Heap) (st : List Value) : List (Nat × NodeId) :=
  (List.range st.length).filterMap fun i =>
    if i % 2 = 0 then (st[i]?.bind (Grammar.standard.asNode h)).join.map (i, ·) else none

/-- The name of the value at a position. -/
def nameAt (st : List Value) (i : Nat) : Value := st[i + 1]?.getD .null

/-- The entry that follows a position towards the tip. -/
def entryAfter (st : List Value) (i : Nat) : Option Value := if i = 0 then none else st[i - 1]?

/-- The rungs of a stack, from the tip to the root. -/
def rungs (h : Heap) (st : List Value) : List Rung :=
  ((places h st).zip (places h st).tail).map fun x =>
    ⟨x.1.2, nameAt st x.1.1, x.2.2, entryAfter st x.2.1⟩

theorem places_single (h : Heap) (v : Value) :
    places h [v] = ((Grammar.standard.asNode h v).join.map (0, ·)).toList := by
  cases hv : (Grammar.standard.asNode h v).join <;> simp [places, List.range_succ, hv]

/-- Two entries further from the tip, the nodes are the same and their positions are two more. -/
theorem places_cons_cons (h : Heap) (v name : Value) (rest : List Value) : places h (v :: name :: rest) =
    ((Grammar.standard.asNode h v).join.map (0, ·)).toList ++ (places h rest).map fun x => (x.1 + 2, x.2) := by
  have hrange : List.range (rest.length + 2) = 0 :: 1 :: (List.range rest.length).map (· + 2) := by
    simp [List.range_succ_eq_map, Function.comp_def]
  have hrest : ((List.range rest.length).map (· + 2)).filterMap (fun i =>
      if i % 2 = 0 then ((v :: name :: rest)[i]?.bind (Grammar.standard.asNode h)).join.map (i, ·) else none) =
      (places h rest).map fun x => (x.1 + 2, x.2) := by
    rw [places, List.filterMap_map, List.map_filterMap]
    refine List.filterMap_congr fun i _ => ?_
    by_cases hi : i % 2 = 0 <;> simp [hi, Function.comp_def]
  rw [places, List.length_cons, List.length_cons, hrange, List.filterMap_cons, List.filterMap_cons, hrest]
  cases hv : (Grammar.standard.asNode h v).join <;> simp [hv]

end Stack

/-- Going up a stack meets the nodes at its even positions, each with its name and the entry that follows it. -/
theorem ancestors_eq_places (h : Heap) : ∀ (st : List Value) (next : Option Value),
    Stack.ancestors .standard h st next = (Stack.places h st).map fun x =>
      ⟨some x.2, Stack.nameAt st x.1, if x.1 = 0 then next else Stack.entryAfter st x.1⟩
  | [], _ => rfl
  | [v], next => by
    rw [Stack.places_single]
    rcases asNode_standard h v with hv | ⟨n, -, hv, -⟩ <;> simp [Stack.ancestors, hv, Stack.nameAt]
  | v :: name :: rest, next => by
    have hrest : Stack.ancestors .standard h rest (some name) = ((Stack.places h rest).map fun x =>
        (x.1 + 2, x.2)).map fun x => ⟨some x.2, Stack.nameAt (v :: name :: rest) x.1,
          if x.1 = 0 then next else Stack.entryAfter (v :: name :: rest) x.1⟩ := by
      rw [ancestors_eq_places h rest (some name), List.map_map]
      refine List.map_congr_left fun x _ => ?_
      rcases x with ⟨_ | i, n⟩ <;> simp [Stack.nameAt, Stack.entryAfter]
    rw [Stack.places_cons_cons, List.map_append, ← hrest]
    rcases asNode_standard h v with hv | ⟨n, -, hv, -⟩ <;> simp [Stack.ancestors, hv, Stack.nameAt]

/-- Going up from node to node is going along the rungs between them. -/
theorem leadsFrom_eq_judge (b : Bool) (name : Nat → Value) (next : Nat → Option Value) : ∀ ps : List (Nat × NodeId),
    leadsFrom h b (ps.map fun x => ⟨some x.2, name x.1, next x.1⟩) =
      judge h b ((ps.zip ps.tail).map fun x => ⟨x.1.2, name x.1.1, x.2.2, next x.2.1⟩)
  | [] => rfl
  | [_] => rfl
  | x :: y :: ps => by
    have ih := leadsFrom_eq_judge b name next (y :: ps)
    rw [List.map_cons, leadsFrom_next b _ _ _ none] at ih
    rw [List.map_cons, List.map_cons, leadsFrom_cons, ih]
    rfl

/-- Leading position is looked up along the chain of rungs. The look-up stops at an edge that the tree does not have
exactly if an open rung before the first that is not open is not held by the tree, or if that one decides and is not
held. Otherwise it answers: a node leads if every rung is open, or if the first that is not is that of a statement or,
where these count, of the body of an arrow function. -/
theorem leads_along_chain (p : Path) (h : Heap) (hg : p.grammar = .standard) (onlyStatement : Bool) :
    ((∃ i, p.leads h onlyStatement = .error (.broken i) ∧ i.kind = .edge) ↔
      Chain.Broken h (Stack.rungs h p.stack)) ∧
    (¬ Chain.Broken h (Stack.rungs h p.stack) →
      p.leads h onlyStatement = .ok (Chain.answer h onlyStatement (Stack.rungs h p.stack))) := by
  have hleads : p.leads h onlyStatement = judge h onlyStatement (Stack.rungs h p.stack) := by
    have hplaces : Stack.ancestors .standard h p.stack none = (Stack.places h p.stack).map fun x =>
        ⟨some x.2, Stack.nameAt p.stack x.1, Stack.entryAfter p.stack x.1⟩ := by
      rw [ancestors_eq_places]
      refine List.map_congr_left fun x _ => ?_
      by_cases hx : x.1 = 0 <;> simp [Stack.entryAfter, hx]
    rw [Path.leads_eq, hg, hplaces, leadsFrom_eq_judge, Stack.rungs]
  rw [hleads]
  refine ⟨⟨?_, judge_of_broken onlyStatement⟩, judge_of_not_broken onlyStatement⟩
  rintro ⟨i, hi, -⟩
  by_contra hb
  rw [judge_of_not_broken onlyStatement hb] at hi
  cases hi

/-- The statement `a(), b`, and a call of something else beside it. -/
def looseChain : Heap where
  nodes := #[{ tag := "Identifier" }, { tag := "CallExpression", fields := .ofEntries [("callee", .node ⟨0⟩)] },
    { tag := "SequenceExpression", fields := .ofEntries [("expressions", .list ⟨0⟩)] },
    { tag := "ExpressionStatement", fields := .ofEntries [("expression", .node ⟨2⟩)] },
    { tag := "CallExpression", fields := .ofEntries [("callee", .node ⟨1⟩)] }]
  lists := #[[.node ⟨1⟩, .node ⟨0⟩]]

/-- From `a` to the statement; values that are no nodes stand between them. -/
def looseStack : List Value :=
  [.node ⟨0⟩, .str "callee", .bool true, .index 7, .node ⟨1⟩, .index 0, .list ⟨0⟩, .str "expressions", .node ⟨2⟩,
    .str "expression", .map ⟨0⟩, .null, .node ⟨3⟩]

/-- A look-up along rungs that are held, and one that stops at the call that does not hold `a`. -/
theorem leads_along_chain_looseChain :
    ¬ Chain.Broken looseChain (Stack.rungs looseChain looseStack) ∧
    (Path.ofStack looseStack).leads looseChain true = .ok true ∧
    ∃ i, (Path.ofStack [.node ⟨0⟩, .str "callee", .node ⟨4⟩]).leads looseChain false = .error (.broken i) ∧
      i.kind = .edge := by
  have hb : ¬ Chain.Broken looseChain (Stack.rungs looseChain looseStack) := by decide
  refine ⟨hb, ?_, (leads_along_chain _ looseChain rfl false).1.2 (by decide)⟩
  rw [(leads_along_chain (Path.ofStack looseStack) looseChain rfl true).2 hb]
  decide

end Bracketing
