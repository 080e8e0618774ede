import Bracketing.Proofs.Path.Trail
import Bracketing.Proofs.Tree.Acyclic

/-!
# Decisions have an answer

On a trail through an acyclic tree in which no sequence holds a list among its expressions, no question about
parentheses stops.

* **Leading position** (`Trail.exists_leads`): the walk up a trail meets no broken edge.
* **The verdict** (`Trail.exists_decide`): every decision on a trail ends with a verdict.
-/

namespace Bracketing

open Bracketing.Tree

variable {g : Grammar} {h : Heap}

/-! ## Leading position -/

theorem expectEdge_ok {n c : NodeId} {k : String} (hk : h.get n k = .node c) : expectEdge h n k c = .ok () := by
  simp [expectEdge, hk]

/-- A step up along an edge of the tree is judged. -/
theorem Edge.exists_passage {child parent : Ancestor} {c p : NodeId} (he : Edge h child parent c p) :
    ∃ r, passage h c child.name p parent.next = .ok r := by
  unfold passage
  split
  · rename_i hx
    simp only [Bool.and_eq_true, decide_eq_true_eq] at hx
    exact ⟨.statement, by rw [expectEdge_ok (he.field _ hx.2)]; rfl⟩
  split
  · rename_i hx
    simp only [Bool.and_eq_true, decide_eq_true_eq] at hx
    exact ⟨.body, by rw [expectEdge_ok (he.field _ hx.2)]; rfl⟩
  split
  · rename_i hx
    simp only [Bool.and_eq_true, decide_eq_true_eq] at hx
    by_cases hn : parent.next = some (.str "expressions")
    · exact ⟨.open, by simp [hn, he.first hx.2 hn hx.1]⟩
    · exact ⟨.closed, by simp [hn]⟩
  · cases hs : leftmostSlot? h p with
    | none => exact ⟨.closed, rfl⟩
    | some slot =>
      by_cases hn : child.name = .str slot
      · exact ⟨.open, by simp only [hn, if_true]; rw [expectEdge_ok (he.field _ hn)]; rfl⟩
      · exact ⟨.closed, by simp [hn]⟩

/-- Every sequence among the values of the stack holds no list among its expressions. -/
def FlatStack (h : Heap) (stack : List Value) : Prop := ∀ n, .node n ∈ Stack.values stack → FlatSequence h n

theorem mem_values_of_ancestors {stack : List Value} {next : Option Value} {a : Ancestor} {n : NodeId}
    (ha : a ∈ Stack.ancestors g h stack next) (hn : a.node = some n) : .node n ∈ Stack.values stack := by
  have hm : some n ∈ (Stack.values stack).filterMap (g.asNode h) := by
    rw [filterMap_values stack next, ← hn]
    exact List.mem_map_of_mem ha
  obtain ⟨v, hv, hvn⟩ := List.mem_filterMap.1 hm
  rwa [eq_node_of_asNode hvn] at hv

/-- One step of the walk up a trail. -/
theorem Trail.exists_leadsFrom_cons {w name : Value} {rest : List Value} (ht : Trail g h (w :: name :: rest))
    (hf : FlatStack h rest) (b : Bool) (next : Option Value)
    (ih : ∃ r, leadsFrom h b (Stack.ancestors g h rest (some name)) = .ok r) :
    ∃ r, leadsFrom h b (Stack.ancestors g h (w :: name :: rest) next) = .ok r := by
  cases hw : g.asNode h w with
  | none => simpa [Stack.ancestors, hw] using ih
  | some m =>
    simp only [Stack.ancestors, hw, Option.map_some, Option.toList_some, List.singleton_append]
    cases has : Stack.ancestors g h rest (some name) with
    | nil => exact ⟨true, by simp [leadsFrom]⟩
    | cons parent as =>
      rw [has] at ih
      cases m with
      | none => simpa [leadsFrom] using ih
      | some c =>
        cases hp : parent.node with
        | none => simpa [leadsFrom, hp] using ih
        | some p =>
          have hflat : FlatSequence h p := hf p (mem_values_of_ancestors (has ▸ List.mem_cons_self) hp)
          have he : Edge h ⟨some c, name, next⟩ parent c p :=
            ht.edge (eq_node_of_asNode hw) rfl has hp hflat
          obtain ⟨r, hr⟩ := he.exists_passage
          simp only [leadsFrom, hp, hr]
          cases r with
          | «open» => exact ih
          | statement => exact ⟨true, rfl⟩
          | body => exact ⟨!b, rfl⟩
          | closed => exact ⟨false, rfl⟩

/-- The walk up a trail comes to an answer. -/
theorem Trail.exists_leadsFrom {stack : List Value} (ht : Trail g h stack) (hf : FlatStack h stack) (b : Bool) :
    ∀ next, ∃ r, leadsFrom h b (Stack.ancestors g h stack next) = .ok r := by
  induction ht with
  | root v =>
    intro next
    cases hv : g.asNode h v <;> exact ⟨true, by simp [Stack.ancestors, hv, leadsFrom]⟩
  | named v name =>
    intro next
    exact (Trail.named v name).exists_leadsFrom_cons (fun n hn => by cases hn) b next ⟨true, rfl⟩
  | @down v rest name ht hv ih =>
    intro next
    have hf' : FlatStack h (v :: rest) := fun n hn => hf n (List.mem_cons_of_mem _ hn)
    exact (Trail.down name ht hv).exists_leadsFrom_cons hf' b next (ih hf' _)

/-- Leading position is decided on every trail. -/
theorem Trail.exists_leads {p : Path} (ht : Trail p.grammar h p.stack) (hf : FlatStack h p.stack) (b : Bool) :
    ∃ r, p.leads h b = .ok r := by
  rw [Path.leads_eq]
  exact ht.exists_leadsFrom hf b none

/-! ## The verdict -/

/-- The parent of the site holds its node under the site's name. -/
def Site.Held (s : Site) : Prop := ∀ k, s.name = .str k → s.heap.get s.parent k = .node s.node

theorem Site.Held.exists_binaryInBinary {s : Site} (hs : s.Held) : ∃ r, s.binaryInBinary = .ok r := by
  unfold Site.binaryInBinary
  split
  · exact ⟨true, rfl⟩
  split
  · split
    · exact ⟨true, rfl⟩
    split
    · rename_i hx
      simp only [Site.isUnder, Bool.and_eq_true, decide_eq_true_eq] at hx
      exact ⟨true, by rw [expectEdge_ok (hs _ hx.2)]; rfl⟩
    split
    · rename_i hx
      simp only [Site.isUnder, Bool.and_eq_true, decide_eq_true_eq] at hx
      exact ⟨true, by rw [expectEdge_ok (hs _ hx.2)]; rfl⟩
    · exact ⟨false, rfl⟩
  · exact ⟨false, rfl⟩

theorem Site.Held.exists_byKind {s : Site} (hs : s.Held) (grandparent : Option NodeId) :
    ∃ r, s.byKind grandparent = .ok r := by
  obtain ⟨b, hb⟩ := hs.exists_binaryInBinary
  unfold Site.byKind
  rw [hb]
  cases s.kind with
  | sequence => cases s.parentKind <;> exact ⟨_, rfl⟩
  | literal => cases s.heap.get s.node "value" <;> exact ⟨_, rfl⟩
  | yield | await | assignment | conditional =>
    dsimp only
    repeat' split
    all_goals exact ⟨_, rfl⟩
  | binary | logical =>
    dsimp only
    repeat' split
    all_goals exact ⟨_, rfl⟩
  | _ => exact ⟨_, rfl⟩

/-- The search below an acyclic node finds a call just if there is one. -/
theorem exists_containsCall {n : NodeId} (ha : h.Acyclic (.node n)) : ∃ b, containsCall h n = .ok b ∧
    (b = true ↔ ∃ m, h.Below (.node n) (.node m) ∧ h.kind (some m) = .call) := by
  have htrue := @Heap.contains_true_iff h (fun m => decide (h.kind (some m) = .call)) _ ha
  obtain ⟨b, hb⟩ := Heap.exists_contains ha fun m => decide (h.kind (some m) = .call)
  refine ⟨b, by simp [containsCall, hb], ?_⟩
  simpa [hb] using htrue

/-- The search for a call ends below every acyclic node. -/
theorem containsCall_ne_error {n : NodeId} (hn : h.Acyclic (.node n)) (x : Stop) : containsCall h n ≠ .error x := by
  obtain ⟨b, hb, -⟩ := exists_containsCall hn
  simp [hb]

theorem eq_endless_of_containsCall {n : NodeId} {x : Stop} (hx : containsCall h n = .error x) : x = .endless := by
  unfold containsCall at hx
  split at hx
  · cases hx
  · exact (Except.error.inj hx).symm

/-- The nearest node around the tip of a trail holds the tip. -/
theorem Trail.held {p : Path} {n q : NodeId} {rest : List Value} (ht : Trail p.grammar h p.stack)
    (hf : FlatStack h p.stack) (hstack : p.stack = .node n :: rest) (hn : p.grammar.isNode h (.node n) = true)
    (hq : p.parent h = some q) : (⟨h, n, q, p.name⟩ : Site).Held := by
  rw [Path.parent_eq, lineage_eq p h none, hstack] at hq
  rw [hstack] at ht hf
  match rest with
  | [] => simp [Stack.ancestors, asNode_node hn] at hq
  | name :: rest =>
    simp only [Stack.ancestors, asNode_node hn, Option.map_some, Option.toList_some, List.singleton_append,
      List.map_cons, List.getElem?_cons_succ] at hq
    cases has : Stack.ancestors p.grammar h rest (some name) with
    | nil => simp [has] at hq
    | cons parent as =>
      have hp : parent.node = some q := by simpa [has] using hq
      have hflat : FlatSequence h q :=
        hf q (List.mem_cons_of_mem _ (mem_values_of_ancestors (has ▸ List.mem_cons_self) hp))
      have he : Edge h ⟨some n, name, none⟩ parent n q := ht.edge rfl rfl has hp hflat
      have hname : p.name = name := by simp [Path.name, hstack]
      intro k hk
      exact he.field k (hname ▸ hk)

/-- A node among the lineage of a path is a node for its grammar. -/
theorem isNode_of_node {p : Path} {n : NodeId} (hn : p.node h = some n) : p.grammar.isNode h (.node n) = true := by
  rw [Path.node_eq, Option.join_eq_some_iff] at hn
  obtain ⟨v, -, hv⟩ := List.mem_filterMap.1 (List.mem_of_getElem? hn)
  obtain rfl := eq_node_of_asNode hv
  by_contra hx
  simp [Grammar.asNode, hx] at hv

/-- Where leading position is decided, only the search for a call can keep the place from giving a verdict. -/
theorem containsCall_of_decideByPlace {p : Path} {s : Site} {b : Bool} {x : Stop}
    (hl : ∀ b, ∃ l, p.leads s.heap b = .ok l) (hx : p.decideByPlace b s = .error x) :
    containsCall s.heap s.node = .error x := by
  obtain ⟨l, hl⟩ := hl (s.kind ≠ .objectExpression)
  unfold Path.decideByPlace at hx
  rw [hl] at hx
  split at hx
  · cases hc : containsCall s.heap s.node with
    | ok c => rw [hc] at hx; cases hx
    | error y => rw [hc] at hx; cases hx; rfl
  split at hx
  · cases l <;> cases hx
  · cases hx

theorem Site.Held.containsCall_of_decideUnder {p : Path} {s : Site} {b : Bool} {x : Stop} (hs : s.Held)
    (hl : ∀ b, ∃ l, p.leads s.heap b = .ok l) (hx : p.decideUnder b s = .error x) :
    containsCall s.heap s.node = .error x := by
  obtain ⟨r, hr⟩ := hs.exists_byKind (p.parent s.heap 1)
  unfold Path.decideUnder at hx
  rw [hr] at hx
  repeat' split at hx
  · cases hx
  · cases hx
  · cases hx
  · cases hx
  · cases r with
    | none => exact containsCall_of_decideByPlace hl hx
    | some c => cases hx

/-- The verdict at a node. -/
theorem Path.decide_node {p : Path} {n : NodeId} {rest : List Value} (hs : p.stack = .node n :: rest)
    (hn : p.grammar.isNode h (.node n) = true) {b : Bool} : p.decide h b =
      if h.kind (some n) = .assignment ∧ h.kind (h.child? n "left") = .objectPattern then
        .ok ⟨true, .objectPatternAssignment⟩
      else
        match p.parent h with
        | none => .ok ⟨false, .root⟩
        | some q => p.decideUnder b ⟨h, n, q, p.name⟩ := by
  have hv : p.value = .ok (.node n) := by simp [Path.value, hs]
  unfold Path.decide
  rw [hv, Path.node_of_tip hs hn]
  simp only [bind, Except.bind, ne_eq, not_true_eq_false, if_false, Bool.and_eq_true, decide_eq_true_eq]
  split
  · rfl
  · cases p.parent h <;> rfl

/-- The verdict on a node that is no statement, no identifier and not marked, and does not stand in parentheses. -/
theorem Path.decideUnder_eq {p : Path} {s : Site} {b : Bool} (hst : p.grammar.isStatement s.heap s.node = false)
    (hid : s.kind ≠ .identifier) (hpar : s.parentKind ≠ .parenthesized)
    (hmark : s.heap.parenthesized s.node = false) :
    p.decideUnder b s = (s.byKind (p.parent s.heap 1)).bind fun
      | some parens => .ok ⟨parens, .ofTag (s.heap.node s.node).tag⟩
      | none => p.decideByPlace b s := by
  unfold Path.decideUnder
  simp only [hst, hid, hpar, hmark, Bool.false_eq_true, if_false]
  rfl

/-- A node that may not lead and does gets parentheses. -/
theorem Path.decideByPlace_of_leads {p : Path} {s : Site} (hnew : s.parentKind ≠ .new)
    (hm : mayLead s.heap (some s.node) = false) (hl : p.leads s.heap (s.kind ≠ .objectExpression) = .ok true) :
    p.decideByPlace false s = .ok ⟨true, .leadingToken⟩ := by
  simp only [Path.decideByPlace, hnew, hm, hl, decide_false, Bool.false_and, Bool.false_eq_true, if_false,
    Bool.not_false, Bool.and_self, if_true]
  rfl

/-- At a node that its parent holds, only the search for a call can keep a decision from ending with a verdict. -/
theorem containsCall_of_decide {p : Path} {n : NodeId} {rest : List Value} {b : Bool} {x : Stop}
    (hs : p.stack = .node n :: rest) (hn : p.grammar.isNode h (.node n) = true)
    (hheld : ∀ q, p.parent h = some q → (⟨h, n, q, p.name⟩ : Site).Held) (hl : ∀ b, ∃ l, p.leads h b = .ok l)
    (hx : p.decide h b = .error x) : containsCall h n = .error x := by
  rw [Path.decide_node hs hn] at hx
  split at hx
  · cases hx
  · cases hq : p.parent h with
    | none => rw [hq] at hx; cases hx
    | some q =>
      rw [hq] at hx
      exact (hheld q hq).containsCall_of_decideUnder hl hx

theorem exists_decide_of_held {p : Path} {n : NodeId} {rest : List Value} (hs : p.stack = .node n :: rest)
    (hn : p.grammar.isNode h (.node n) = true) (ha : h.Acyclic (.node n))
    (hheld : ∀ q, p.parent h = some q → (⟨h, n, q, p.name⟩ : Site).Held) (hl : ∀ b, ∃ l, p.leads h b = .ok l)
    (b : Bool) : ∃ v, p.decide h b = .ok v := by
  cases hd : p.decide h b with
  | ok v => exact ⟨v, rfl⟩
  | error x => exact absurd (containsCall_of_decide hs hn hheld hl hd) (containsCall_ne_error ha x)

/-- Only the search for a call, at the tip, can keep a decision on a trail from ending with a verdict. -/
theorem Trail.containsCall_of_decide {p : Path} {b : Bool} {x : Stop} (ht : Trail p.grammar h p.stack)
    (hf : FlatStack h p.stack) (hx : p.decide h b = .error x) :
    ∃ n, p.stack.head? = some (.node n) ∧ containsCall h n = .error x := by
  obtain ⟨v, rest, hstack⟩ := List.exists_cons_of_ne_nil ht.ne_nil
  have hv : p.value = .ok v := by simp [Path.value, hstack]
  cases hn : p.node h with
  | none => simp [Path.decide, hv, hn, bind, Except.bind, pure, Except.pure] at hx
  | some n =>
    by_cases hvn : v = .node n
    · subst hvn
      have hnode := isNode_of_node hn
      exact ⟨n, by simp [hstack], Bracketing.containsCall_of_decide hstack hnode
        (fun q => ht.held hf hstack hnode) (ht.exists_leads hf) hx⟩
    · simp [Path.decide, hv, hn, hvn, bind, Except.bind, pure, Except.pure] at hx

/-- Every decision on a trail through an acyclic tree ends with a verdict. -/
theorem Trail.exists_decide {p : Path} (ht : Trail p.grammar h p.stack) (hf : FlatStack h p.stack)
    (ha : ∀ n, p.stack.head? = some (.node n) → h.Acyclic (.node n)) (b : Bool) : ∃ v, p.decide h b = .ok v := by
  cases hd : p.decide h b with
  | ok v => exact ⟨v, rfl⟩
  | error x =>
    obtain ⟨n, hn, hc⟩ := ht.containsCall_of_decide hf hd
    exact absurd hc (containsCall_ne_error (ha n hn) x)

end Bracketing
