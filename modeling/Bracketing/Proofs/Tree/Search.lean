import Bracketing.Proofs.Tree.Plain

/-!
# Searches stop at the first node that passes

A search does not leave the loops it is in when a node passes its test: it goes on through the fields and elements that
are left, and only declines to enter nodes or to test them. What it does is still what going through the preorder does,
up to the first node that passes. A test may keep a state of its own here, so that it can note where it is asked.

- `Ceases`: a visit that has declined to enter a node declines from then on, and changes nothing any more. Every such
  visit does to its state what it does along the preorder (`inspectWithin_eq_visitEach`);
- `searchWith_eq_anyM`: so a search is the test of the nodes in preorder, one after another, until one passes;
- `searchWith_noting`: the nodes tested are those of the preorder up to the first that passes, that one included;
- `search_eq_searchWith`: a plain search is one that notes where it tests and keeps the number of these nodes only.
-/

namespace Bracketing.Tree.Heap

variable {h : Heap} {σ : Type} {v : Value} {ns : List NodeId} {depth : Nat}

/-! ## Visits that cease -/

section Visit

variable {visit : σ → NodeId → Bool × σ}

/-- In this state the visit declines to enter any node, and leaves the state as it is. -/
def Settled (visit : σ → NodeId → Bool × σ) (s : σ) : Prop := ∀ n, visit s n = (false, s)

/-- A visit that has declined to enter a node is settled. -/
def Ceases (visit : σ → NodeId → Bool × σ) : Prop := ∀ s n, (visit s n).1 = false → Settled visit (visit s n).2

/-- The state after visiting nodes one after another, whether they are to be entered or not. -/
def visitEach (visit : σ → NodeId → Bool × σ) (ns : List NodeId) (s : σ) : σ := ns.foldl (fun s n => (visit s n).2) s

theorem Settled.visitEach_eq {s : σ} (hs : Settled visit s) (ns : List NodeId) : visitEach visit ns s = s := by
  induction ns with
  | nil => rfl
  | cons n ns ih => rw [visitEach, List.foldl_cons, hs n]; exact ih

/-- A visit that ceases does to its state what it does along the nodes listed. Where a node is declined, those below it
are listed all the same, but visiting them has no effect. -/
theorem Ceases.exists_visitEach (hc : Ceases visit) : ∀ {depth depth' : Nat} {v : Value}, h.Shallow depth v →
    h.Shallow depth' v → ∃ ns, h.Lists (fun _ => true) depth v ns ∧
      ∀ s, h.inspectWithin visit depth' v s = some (visitEach visit ns s)
  | 0, _, _, hv, _ => hv.not_zero.elim
  | _ + 1, 0, _, _, hv => hv.not_zero.elim
  | depth + 1, depth' + 1, v, hv, hv' => by
    -- a search has more depth than a listing, but neither runs out of it, so both go down together
    have hall : ∀ vs : List Value, (∀ w ∈ vs, h.Member v w) → ∃ ns, h.ListsAll (fun _ => true) depth vs ns ∧
        ∀ s, vs.foldlM (fun s w => h.inspectWithin visit depth' w s) s = some (visitEach visit ns s) := by
      intro vs
      induction vs with
      | nil => exact fun _ => ⟨[], .nil, fun _ => rfl⟩
      | cons w vs ih =>
        intro hvs
        obtain ⟨hw, hvs⟩ := List.forall_mem_cons.1 hvs
        obtain ⟨ns, hns, hvisit⟩ := hc.exists_visitEach (hv.member hw) (hv'.member hw)
        obtain ⟨ms, hms, hvisits⟩ := ih hvs
        refine ⟨ns ++ ms, .cons hns hms, fun s => ?_⟩
        simp only [List.foldlM_cons, hvisit s, Option.bind_eq_bind, Option.bind_some, hvisits]
        rw [visitEach, visitEach, visitEach, List.foldl_append]
    obtain ⟨ns, hns, hvisits⟩ := hall (h.members v) fun _ hw => hw
    cases v with
    | node n =>
      refine ⟨n :: ns, lists_entered rfl hns, fun s => ?_⟩
      have hcons : visitEach visit (n :: ns) s = visitEach visit ns (visit s n).2 := rfl
      have hfields := hvisits (visit s n).2
      rw [members, List.foldlM_map] at hfields
      simp only [inspectWithin]
      rw [hcons]
      cases hn : (visit s n).1 with
      | true => exact hfields
      | false => rw [(hc s n hn).visitEach_eq]; rfl
    | list l => exact ⟨ns, lists_list hns, hvisits⟩
    | _ => exact ⟨[], lists_other (by simp) (by simp), fun _ => rfl⟩

/-- On an acyclic value, a visit that ceases does to its state what it does along the preorder. -/
theorem Ceases.inspectWithin_eq_visitEach (hc : Ceases visit) (hv : h.Acyclic v) (hns : h.preorder v = some ns)
    (hd : h.extent < depth) (s : σ) : h.inspectWithin visit depth v s = some (visitEach visit ns s) := by
  obtain ⟨ms, hms, hvisit⟩ := hc.exists_visitEach (hv.shallow (Nat.lt_succ_self _)) (hv.shallow hd)
  have hlisted : h.preorder v = some ms := hms.preorderWhere_eq
  obtain rfl : ns = ms := Option.some.inj (hns.symm.trans hlisted)
  exact hvisit s

end Visit

/-! ## Searches with a state -/

section Test

variable {test : NodeId → StateM σ Bool}

/-- One test of a search, by a test that keeps a state: nothing is tested once a node has passed. -/
def ask (test : NodeId → StateM σ Bool) (s : Bool × σ) (n : NodeId) : Bool × Bool × σ :=
  if s.1 then (false, s)
  else
    let r := Id.run ((test n).run s.2)
    (!r.1, r)

/-- Tests the nodes below a value in preorder until one passes, threading the state of the test. -/
def searchWith (h : Heap) (test : NodeId → StateM σ Bool) (v : Value) (s : σ) : Option (Bool × σ) :=
  h.inspectWithin (ask test) (2 * h.extent + 1) v (false, s)

theorem settled_ask (s : σ) : Settled (ask test) (true, s) := fun _ => rfl

theorem ceases_ask (test : NodeId → StateM σ Bool) : Ceases (ask test) := by
  rintro ⟨found, s⟩ n hn
  cases found with
  | true => exact settled_ask s
  | false =>
    -- the node is declined because it passes
    have hpass : (ask test (false, s) n).2 = (true, (Id.run ((test n).run s)).2) := by
      simp only [ask, Bool.false_eq_true, if_false, Bool.not_eq_false'] at hn ⊢
      rw [← hn]
    rw [hpass]
    exact settled_ask _

theorem run_anyM_of_pass {n : NodeId} {s t : σ} (hn : Id.run ((test n).run s) = (true, t)) (ns : List NodeId) :
    Id.run (((n :: ns).anyM test).run s) = (true, t) := by
  simp [hn]

theorem run_anyM_of_fail {n : NodeId} {s t : σ} (hn : Id.run ((test n).run s) = (false, t)) (ns : List NodeId) :
    Id.run (((n :: ns).anyM test).run s) = Id.run ((ns.anyM test).run t) := by
  simp [hn]

theorem visitEach_ask (ns : List NodeId) (s : σ) :
    visitEach (ask test) ns (false, s) = Id.run ((ns.anyM test).run s) := by
  induction ns generalizing s with
  | nil => rfl
  | cons n ns ih =>
    have hcons : visitEach (ask test) (n :: ns) (false, s) = visitEach (ask test) ns (Id.run ((test n).run s)) := rfl
    rw [hcons]
    rcases hn : Id.run ((test n).run s) with ⟨_ | _, t⟩
    · rw [run_anyM_of_fail hn, ih]
    · rw [run_anyM_of_pass hn, (settled_ask t).visitEach_eq]

/-- A search of an acyclic value tests the nodes of its preorder, one after another, until one passes. -/
theorem searchWith_eq_anyM (hv : h.Acyclic v) (hns : h.preorder v = some ns) (test : NodeId → StateM σ Bool) (s : σ) :
    h.searchWith test v s = some (Id.run ((ns.anyM test).run s)) := by
  rw [searchWith, (ceases_ask test).inspectWithin_eq_visitEach hv hns (by omega), visitEach_ask]

end Test

/-! ## Plain searches -/

section Noting

variable {test : NodeId → Bool}

/-- The plain test, made one that notes the nodes at which it is asked. -/
def noting (test : NodeId → Bool) (n : NodeId) : StateM (List NodeId) Bool := do
  modify (· ++ [n])
  return test n

theorem run_noting (n : NodeId) (seen : List NodeId) : Id.run ((noting test n).run seen) = (test n, seen ++ [n]) := rfl

theorem anyM_noting (ns seen : List NodeId) : Id.run ((ns.anyM (noting test)).run seen) =
    (ns.any test, seen ++ ns.take (ns.findIdx test + 1)) := by
  induction ns generalizing seen with
  | nil => simp
  | cons n ns ih =>
    cases ht : test n with
    | true =>
      rw [run_anyM_of_pass ((run_noting n seen).trans (by rw [ht]))]
      simp [List.findIdx_cons, ht]
    | false =>
      rw [run_anyM_of_fail ((run_noting n seen).trans (by rw [ht])), ih]
      simp [List.findIdx_cons, ht]

/-- The nodes at which a search tests are those of the preorder up to the first that passes, that one included. -/
theorem searchWith_noting (hv : h.Acyclic v) (hns : h.preorder v = some ns) (test : NodeId → Bool) :
    h.searchWith (noting test) v [] = some (ns.any test, ns.take (ns.findIdx test + 1)) := by
  rw [searchWith_eq_anyM hv hns, anyM_noting, List.nil_append]

/-- A plain search is one that notes the nodes at which it tests and keeps their number only. -/
theorem search_eq_searchWith (h : Heap) (test : NodeId → Bool) (v : Value) :
    h.search test v = (h.searchWith (noting test) v []).map fun r => ⟨r.1, r.2.length⟩ := by
  refine inspectWithin_map (ask (noting test)) (probe test) (fun r => ⟨r.1, r.2.length⟩) ?_ _ v (false, [])
  rintro ⟨found, seen⟩ n
  cases found with
  | true => rfl
  | false => cases ht : test n <;> simp [probe, ask, run_noting, ht]

theorem contains_eq_any (hv : h.Acyclic v) (hns : h.preorder v = some ns) (test : NodeId → Bool) :
    h.contains test v = some (ns.any test) := by
  rw [contains, search_eq_searchWith, searchWith_noting hv hns]
  rfl

end Noting

end Bracketing.Tree.Heap
