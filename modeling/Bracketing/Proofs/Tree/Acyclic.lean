import Bracketing.Tree.Inspect
import Mathlib.Data.List.Chain
import Mathlib.Data.Finset.Card
import Mathlib.Logic.Relation

/-!
# Acyclic values

A value is acyclic if no object below it leads back to itself. A chain of members that does not come back to an object
passes through every object at most once, so it is no longer than the heap (`chain_length_le`).

* **Searches end** (`inspectWithin_ne_none`): the visit of an acyclic value in preorder comes to its end.
* **Searches are exhaustive** (`contains_false`, `contains_true_iff`): a search that found nothing has tested every node
  below its value, and what it finds is there.
-/

namespace Bracketing.Tree.Heap

variable {h : Heap}

/-! ## Members -/

/-- The values that a value holds: those of the fields of a node, those of a list. -/
def members (h : Heap) : Value → List Value
  | .node n => (h.node n).fields.entries.map Prod.snd
  | .list l => h.list l
  | _ => []

/-- The first value holds the second. -/
def Member (h : Heap) (v w : Value) : Prop := w ∈ h.members v

/-- The second value is the first, or below it. -/
def Below (h : Heap) : Value → Value → Prop := Relation.ReflTransGen h.Member

/-- Nothing at or below the value is strictly below itself. -/
def Acyclic (h : Heap) (v : Value) : Prop := ∀ w, h.Below v w → ¬ Relation.TransGen h.Member w w

theorem Acyclic.of_below {v w : Value} (hv : h.Acyclic v) (hw : h.Below v w) : h.Acyclic w :=
  fun u hu => hv u (hw.trans hu)

theorem Acyclic.member {v w : Value} (hv : h.Acyclic v) (hw : h.Member v w) : h.Acyclic w :=
  hv.of_below (.single hw)

/-- What a name that stands for a field gives is a member, unless it is nothing. -/
theorem member_of_get {n : NodeId} {k : String} {v : Value} (hk : k ≠ "type" ∧ k ≠ "loc" ∧ k ≠ "extra")
    (hv : h.get n k = v) (hnull : v ≠ .null) : h.Member (.node n) v := by
  simp only [get, hk.1, hk.2.1, hk.2.2, if_false, Record.get, Record.get?] at hv
  cases hl : (h.node n).fields.entries.lookup k with
  | none => rw [hl] at hv; exact absurd hv.symm hnull
  | some w =>
    rw [hl] at hv
    obtain ⟨l₁, l₂, hl', -⟩ := List.lookup_eq_some_iff.1 hl
    simp only [Option.getD_some] at hv
    subst hv
    simp [Member, members, hl']

/-- What a name gives is a member, unless it is nothing or what the names that stand for no field give. -/
theorem member_of_get_ne {n : NodeId} {k : String} {v : Value} (hv : h.get n k = v) (hnull : v ≠ .null)
    (htag : ∀ t, v ≠ .str t) (hloc : ∀ l, v ≠ .location l) (hextra : ∀ m, v ≠ .map m) : h.Member (.node n) v := by
  refine member_of_get ⟨?_, ?_, ?_⟩ hv hnull
  · rintro rfl
    exact htag (h.node n).tag (by simp [← hv, get])
  · rintro rfl
    cases hx : (h.node n).location with
    | none => exact hnull (by simp [← hv, get, hx])
    | some l => exact hloc l (by simp [← hv, get, hx])
  · rintro rfl
    cases hx : (h.node n).extra with
    | none => exact hnull (by simp [← hv, get, hx])
    | some m => exact hextra m (by simp [← hv, get, hx])

/-- A node or list that a name gives is a member. -/
theorem member_of_get_object {n : NodeId} {k : String} {v : Value} (hv : h.get n k = v)
    (ho : (∃ c, v = .node c) ∨ ∃ l, v = .list l) : h.Member (.node n) v := by
  rcases ho with ⟨c, rfl⟩ | ⟨l, rfl⟩ <;> exact member_of_get_ne hv (by simp) (by simp) (by simp) (by simp)

theorem member_of_mem {l : ListId} {v : Value} (hv : v ∈ h.list l) : h.Member (.list l) v := hv

/-! ## Chains of members -/

theorem node_index_lt {n : NodeId} {w : Value} (hw : h.Member (.node n) w) : n.index < h.nodes.size := by
  by_contra hn
  have he : h.node n = {} := by simp [node, Array.getD, hn]
  simp [Member, members, he] at hw

theorem list_index_lt {l : ListId} {w : Value} (hw : h.Member (.list l) w) : l.index < h.lists.size := by
  by_contra hl
  have he : h.list l = [] := by simp [list, Array.getD, hl]
  simp [Member, members, he] at hw

/-- Objects whose members are all smaller, by some measure, lead to no cycle. -/
theorem acyclic_of_measure (μ : Value → Nat)
    (hn : ∀ i < h.nodes.size, ∀ w ∈ h.members (.node ⟨i⟩), μ w < μ (.node ⟨i⟩))
    (hl : ∀ i < h.lists.size, ∀ w ∈ h.members (.list ⟨i⟩), μ w < μ (.list ⟨i⟩)) (v : Value) : h.Acyclic v := by
  have hstep : ∀ a b, h.Member a b → μ b < μ a := by
    intro a b hab
    cases a with
    | node n => exact hn n.index (node_index_lt hab) b hab
    | list l => exact hl l.index (list_index_lt hab) b hab
    | _ => simp [Member, members] at hab
  have hchain : ∀ a b, Relation.TransGen h.Member a b → μ b < μ a := by
    intro a b hab
    induction hab with
    | single hab => exact hstep _ _ hab
    | tail _ hbc ih => exact Nat.lt_trans (hstep _ _ hbc) ih
  exact fun w _ hw => Nat.lt_irrefl _ (hchain w w hw)

/-- The place of a node among all nodes, counted from one: a measure for heaps whose nodes come after their parts. -/
def nodePlace : Value → Nat
  | .node n => n.index + 1
  | _ => 0

/-- The value is one of so many nodes or of so many lists. -/
def Inside (nodes lists : Nat) : Value → Prop
  | .node n => n.index < nodes
  | .list l => l.index < lists
  | _ => False

/-- The place of an object among all, the nodes first. -/
def rank (nodes : Nat) : Value → Nat
  | .node n => n.index
  | .list l => nodes + l.index
  | _ => 0

/-- A value that holds something is an object of the heap. -/
theorem inside_of_member {v w : Value} (hw : h.Member v w) : Inside h.nodes.size h.lists.size v := by
  cases v with
  | node n => exact node_index_lt hw
  | list l => exact list_index_lt hw
  | _ => simp [Member, members] at hw

theorem rank_lt {nodes lists : Nat} {v : Value} (hv : Inside nodes lists v) : rank nodes v < nodes + lists := by
  cases v with
  | node n =>
    simp only [Inside] at hv
    simp only [rank]
    omega
  | list l =>
    simp only [Inside] at hv
    simp only [rank]
    omega
  | _ => exact hv.elim

/-- Objects are told apart by their places. -/
theorem rank_injective {nodes lists : Nat} {v w : Value} (hv : Inside nodes lists v) (hw : Inside nodes lists w)
    (he : rank nodes v = rank nodes w) : v = w := by
  cases v with
  | node n =>
    simp only [Inside] at hv
    cases w with
    | node m => cases n; cases m; simp_all [rank]
    | list m =>
      simp only [rank] at he
      omega
    | _ => exact hw.elim
  | list l =>
    cases w with
    | node m =>
      simp only [Inside] at hw
      simp only [rank] at he
      omega
    | list m => cases l; cases m; simp_all [rank]
    | _ => exact hw.elim
  | _ => exact hv.elim

/-- Distinct objects are no more than there are. -/
theorem length_le_of_inside {nodes lists : Nat} {vs : List Value} (hd : vs.Nodup)
    (hi : ∀ v ∈ vs, Inside nodes lists v) : vs.length ≤ nodes + lists := by
  have hr : (vs.map (rank nodes)).Nodup :=
    List.Nodup.map_on (fun v hv w hw he => rank_injective (hi v hv) (hi w hw) he) hd
  have hs : (vs.map (rank nodes)).toFinset ⊆ Finset.range (nodes + lists) := by
    intro i hm
    obtain ⟨v, hv, rfl⟩ := List.mem_map.1 (List.mem_toFinset.1 hm)
    exact Finset.mem_range.2 (rank_lt (hi v hv))
  have hc := Finset.card_le_card hs
  rw [List.toFinset_card_of_nodup hr, Finset.card_range, List.length_map] at hc
  exact hc

/-- Distinct values that each hold something are no more than the objects of the heap. -/
theorem length_le_extent {vs : List Value} (hd : vs.Nodup) (hm : ∀ v ∈ vs, ∃ w, h.Member v w) :
    vs.length ≤ h.extent :=
  length_le_of_inside hd fun v hv => (hm v hv).elim fun _ hw => inside_of_member hw

/-- A chain from where nothing leads back to itself does not come to anything twice. -/
theorem nodup_of_isChain {α : Type} {r : α → α → Prop} {a : α} {as : List α}
    (ha : ∀ b, Relation.ReflTransGen r a b → ¬ Relation.TransGen r b b) (hc : (a :: as).IsChain r) :
    (a :: as).Nodup := by
  have hp : (a :: as).Pairwise (Relation.TransGen r) :=
    List.isChain_iff_pairwise.1 (hc.imp fun _ _ => Relation.TransGen.single)
  have hb : ∀ b ∈ a :: as, Relation.ReflTransGen r a b := by
    intro b hb
    rcases List.mem_cons.1 hb with rfl | hb
    · exact .refl
    · exact ((List.pairwise_cons.1 hp).1 b hb).to_reflTransGen
  refine hp.imp_of_mem ?_
  rintro b c hm - hbc rfl
  exact ha b (hb b hm) hbc

/-- Everything on a chain but the last leads on. -/
theorem exists_next_of_isChain {α : Type} {r : α → α → Prop} : ∀ {as : List α}, as.IsChain r →
    ∀ a ∈ as.dropLast, ∃ b, r a b
  | [], _ => by simp
  | [_], _ => by simp
  | a :: b :: as, hc => by
    obtain ⟨hab, hc⟩ := List.isChain_cons_cons.1 hc
    rw [List.dropLast_cons_cons, List.forall_mem_cons]
    exact ⟨⟨b, hab⟩, exists_next_of_isChain hc⟩

/-- A chain of members from an acyclic value has at most as many links as the heap has objects. -/
theorem chain_length_le {v : Value} {ws : List Value} (hv : h.Acyclic v) (hc : (v :: ws).IsChain h.Member) :
    ws.length ≤ h.extent := by
  have hd : (v :: ws).dropLast.Nodup := (nodup_of_isChain hv hc).sublist (List.dropLast_sublist _)
  simpa using length_le_extent hd (exists_next_of_isChain hc)

theorem exists_chain_of_not_acc {v : Value} (hv : ¬ Acc (fun a b => h.Member b a) v) (k : Nat) :
    ∃ ws : List Value, ws.length = k ∧ (v :: ws).IsChain h.Member := by
  induction k generalizing v with
  | zero => exact ⟨[], rfl, List.isChain_singleton v⟩
  | succ k ih =>
    obtain ⟨w, hw, hacc⟩ : ∃ w, h.Member v w ∧ ¬ Acc (fun a b => h.Member b a) w := by
      by_contra hx
      push Not at hx
      exact hv ⟨v, hx⟩
    obtain ⟨ws, hlen, hc⟩ := ih hacc
    exact ⟨w :: ws, by simp [hlen], List.isChain_cons_cons.2 ⟨hw, hc⟩⟩

/-- Going down from an acyclic value comes to an end. -/
theorem Acyclic.acc {v : Value} (hv : h.Acyclic v) : Acc (fun a b => h.Member b a) v := by
  by_contra hacc
  obtain ⟨ws, hlen, hc⟩ := exists_chain_of_not_acc hacc (h.extent + 1)
  have := chain_length_le hv hc
  omega

/-! ## Searches -/

section Search

variable {σ : Type} {visit : σ → NodeId → Bool × σ}

theorem exists_of_foldlM_none {α : Type} {f : σ → α → Option σ} : ∀ {as : List α} {s : σ},
    as.foldlM f s = none → ∃ a ∈ as, ∃ t, f t a = none
  | [], _, h => by cases h
  | a :: as, s, h => by
    cases ha : f s a with
    | none => exact ⟨a, List.mem_cons_self, s, ha⟩
    | some t =>
      simp only [List.foldlM_cons, ha, Option.bind_eq_bind, Option.bind_some] at h
      obtain ⟨b, hb, u, hu⟩ := exists_of_foldlM_none h
      exact ⟨b, List.mem_cons_of_mem _ hb, u, hu⟩

/-- A visit that runs out of depth has gone down a chain of that many links. -/
theorem exists_chain_of_inspectWithin : ∀ {depth : Nat} {v : Value} {s : σ},
    h.inspectWithin visit depth v s = none → ∃ ws, ws.length = depth ∧ (v :: ws).IsChain h.Member
  | 0, v, _, _ => ⟨[], rfl, .singleton v⟩
  | depth + 1, .node n, s, hn => by
    simp only [inspectWithin] at hn
    split at hn
    · obtain ⟨e, he, t, ht⟩ := exists_of_foldlM_none hn
      obtain ⟨ws, hl, hc⟩ := exists_chain_of_inspectWithin ht
      have hm : h.Member (.node n) e.2 := List.mem_map_of_mem he
      exact ⟨e.2 :: ws, by simp [hl], .cons_cons hm hc⟩
    · cases hn
  | depth + 1, .list l, s, hn => by
    simp only [inspectWithin] at hn
    obtain ⟨w, hw, t, ht⟩ := exists_of_foldlM_none hn
    obtain ⟨ws, hl, hc⟩ := exists_chain_of_inspectWithin ht
    exact ⟨w :: ws, by simp [hl], .cons_cons (member_of_mem hw) hc⟩
  | depth + 1, .null, _, hn | depth + 1, .bool _, _, hn | depth + 1, .num _, _, hn | depth + 1, .str _, _, hn
  | depth + 1, .index _, _, hn | depth + 1, .noNode, _, hn | depth + 1, .map _, _, hn
  | depth + 1, .location _, _, hn | depth + 1, .foreign _, _, hn => by simp [inspectWithin] at hn

/-- The visit of an acyclic value comes to its end. -/
theorem inspectWithin_ne_none {v : Value} {depth : Nat} (hv : h.Acyclic v) (hd : h.extent < depth) (s : σ) :
    h.inspectWithin visit depth v s ≠ none := by
  intro hn
  obtain ⟨ws, hl, hc⟩ := exists_chain_of_inspectWithin hn
  have := chain_length_le hv hc
  omega

end Search

/-- The search of an acyclic value has an answer. -/
theorem exists_contains {v : Value} (hv : h.Acyclic v) (test : NodeId → Bool) : ∃ b, h.contains test v = some b := by
  unfold contains search
  cases hs : h.inspectWithin _ (2 * h.extent + 1) v ({} : Search) with
  | none => exact absurd hs (inspectWithin_ne_none hv (by omega) _)
  | some r => exact ⟨r.found, rfl⟩

section Exhaustive

variable {test : NodeId → Bool}

/-- One test of a search: nothing is tested once a node has passed. -/
def probe (test : NodeId → Bool) (s : Search) (n : NodeId) : Bool × Search :=
  if s.found then (false, s)
  else if test n then (false, { found := true, tested := s.tested + 1 })
  else (true, { found := false, tested := s.tested + 1 })

theorem search_eq (v : Value) : h.search test v = h.inspectWithin (probe test) (2 * h.extent + 1) v {} := rfl

/-- No node at or below the value passes the test. -/
def Free (h : Heap) (test : NodeId → Bool) (v : Value) : Prop := ∀ n, h.Below v (.node n) → test n = false

theorem free_of_members {v : Value} (hv : ∀ n, v = .node n → test n = false)
    (hm : ∀ w, h.Member v w → h.Free test w) : h.Free test v := by
  intro n hn
  rcases Relation.ReflTransGen.cases_head hn with he | ⟨w, hw, hn⟩
  · exact hv n he
  · exact hm w hw n hn

/-- If a fold of searches found nothing, none of them did. -/
theorem foldlM_silent {α : Type} {f : Search → α → Option Search} {P : α → Prop}
    (hf : ∀ a s t, f s a = some t → t.found = false → s.found = false ∧ P a) :
    ∀ {as : List α} {s t : Search}, as.foldlM f s = some t → t.found = false → s.found = false ∧ ∀ a ∈ as, P a
  | [], s, t, he, ht => by
    cases he
    exact ⟨ht, by simp⟩
  | a :: as, s, t, he, ht => by
    rw [List.foldlM_cons, Option.bind_eq_bind, Option.bind_eq_some_iff] at he
    obtain ⟨u, hu, he⟩ := he
    obtain ⟨hu', hP⟩ := foldlM_silent hf he ht
    obtain ⟨hs, ha⟩ := hf a s u hu hu'
    exact ⟨hs, List.forall_mem_cons.2 ⟨ha, hP⟩⟩

theorem inspectWithin_silent : ∀ {depth : Nat} {v : Value} {s t : Search},
    h.inspectWithin (probe test) depth v s = some t → t.found = false → s.found = false ∧ h.Free test v
  | 0, _, _, _, he, _ => by cases he
  | depth + 1, .node n, s, t, he, ht => by
    simp only [inspectWithin, probe] at he
    by_cases hs : s.found = true
    · simp only [hs, if_true, Bool.false_eq_true, if_false, Option.some.injEq] at he
      subst he
      exact absurd ht (by simp [hs])
    · simp only [hs, if_false, Bool.false_eq_true] at he
      by_cases hn : test n = true
      · simp only [hn, if_true, Bool.false_eq_true, if_false, Option.some.injEq] at he
        subst he
        cases ht
      · simp only [hn, if_false, if_true, Bool.false_eq_true] at he
        obtain ⟨-, hP⟩ := foldlM_silent (P := fun e : String × Value => h.Free test e.2)
          (fun e s t he ht => inspectWithin_silent he ht) he ht
        refine ⟨by simpa using hs, free_of_members (fun m hm => ?_) fun w hw => ?_⟩
        · cases hm
          simpa using hn
        · obtain ⟨e, he, rfl⟩ := List.mem_map.1 hw
          exact hP e he
  | depth + 1, .list l, s, t, he, ht => by
    simp only [inspectWithin] at he
    obtain ⟨hs, hP⟩ := foldlM_silent (P := h.Free test) (fun v s t he ht => inspectWithin_silent he ht) he ht
    exact ⟨hs, free_of_members (fun m hm => by cases hm) fun w hw => hP w hw⟩
  | depth + 1, .null, s, t, he, ht | depth + 1, .bool _, s, t, he, ht | depth + 1, .num _, s, t, he, ht
  | depth + 1, .str _, s, t, he, ht | depth + 1, .index _, s, t, he, ht | depth + 1, .noNode, s, t, he, ht
  | depth + 1, .map _, s, t, he, ht | depth + 1, .location _, s, t, he, ht
  | depth + 1, .foreign _, s, t, he, ht => by
    simp only [inspectWithin, Option.some.injEq] at he
    subst he
    exact ⟨ht, free_of_members (fun m hm => by cases hm) fun w hw => by simp [Member, members] at hw⟩

/-- A search that found nothing has tested every node. -/
theorem contains_false {v : Value} (hc : h.contains test v = some false) : h.Free test v := by
  simp only [contains, search_eq, Option.map_eq_some_iff] at hc
  obtain ⟨r, hr, hf⟩ := hc
  exact (inspectWithin_silent hr hf).2

/-- A fold of searches that each find nothing finds nothing. -/
theorem foldlM_quiet {α : Type} {f : Search → α → Option Search} : ∀ {as : List α} {s t : Search},
    (∀ a ∈ as, ∀ s t, f s a = some t → s.found = false → t.found = false) → as.foldlM f s = some t →
    s.found = false → t.found = false
  | [], s, t, _, he, hs => by
    cases he
    exact hs
  | a :: as, s, t, hf, he, hs => by
    rw [List.foldlM_cons, Option.bind_eq_bind, Option.bind_eq_some_iff] at he
    obtain ⟨u, hu, he⟩ := he
    exact foldlM_quiet (fun b hb => hf b (List.mem_cons_of_mem a hb)) he (hf a List.mem_cons_self s u hu hs)

/-- A search finds nothing where no node passes the test. -/
theorem Free.inspectWithin_quiet : ∀ {depth : Nat} {v : Value} {s t : Search}, h.Free test v →
    h.inspectWithin (probe test) depth v s = some t → s.found = false → t.found = false
  | 0, _, _, _, _, he, _ => by cases he
  | depth + 1, .node n, s, t, hf, he, hs => by
    have hn : test n = false := hf n .refl
    simp only [inspectWithin, probe, hs, hn, Bool.false_eq_true, if_false, if_true] at he
    refine foldlM_quiet (fun e hm s t he hs => ?_) he rfl
    exact inspectWithin_quiet (fun m hb => hf m (.head (List.mem_map_of_mem hm) hb)) he hs
  | depth + 1, .list l, s, t, hf, he, hs => by
    simp only [inspectWithin] at he
    refine foldlM_quiet (fun w hm s t he hs => ?_) he hs
    exact inspectWithin_quiet (fun m hb => hf m (.head (member_of_mem hm) hb)) he hs
  | depth + 1, .null, s, t, _, he, hs | depth + 1, .bool _, s, t, _, he, hs | depth + 1, .num _, s, t, _, he, hs
  | depth + 1, .str _, s, t, _, he, hs | depth + 1, .index _, s, t, _, he, hs | depth + 1, .noNode, s, t, _, he, hs
  | depth + 1, .map _, s, t, _, he, hs | depth + 1, .location _, s, t, _, he, hs
  | depth + 1, .foreign _, s, t, _, he, hs => by
    simp only [inspectWithin, Option.some.injEq] at he
    exact he ▸ hs

/-- A search of an acyclic value finds a node just if there is one. -/
theorem contains_true_iff {v : Value} (hv : h.Acyclic v) :
    h.contains test v = some true ↔ ∃ n, h.Below v (.node n) ∧ test n = true := by
  constructor
  · intro hc
    by_contra hno
    have hfree : h.Free test v := fun n hn => by
      by_contra hx
      exact hno ⟨n, hn, by simpa using hx⟩
    simp only [contains, search_eq, Option.map_eq_some_iff] at hc
    obtain ⟨r, hr, hf⟩ := hc
    rw [hfree.inspectWithin_quiet hr rfl] at hf
    cases hf
  · rintro ⟨n, hn, ht⟩
    obtain ⟨b, hb⟩ := exists_contains hv test
    cases b with
    | true => exact hb
    | false =>
      rw [contains_false hb n hn] at ht
      cases ht

end Exhaustive

end Bracketing.Tree.Heap
