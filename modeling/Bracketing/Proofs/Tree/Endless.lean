import Bracketing.Proofs.Tree.Acyclic

/-!
# Searches without end

A search of a value that holds itself may still end: it stops going down nodes once it has found one. So it stands at a
value in one of two ways, with nothing found or with a node found, and `Pursues` says to which members it goes on from
there. A search has no end just if these steps lead into a circle.

- `exists_pursuit`: a search that runs out of depth has made that many steps;
- `Circles.inspectWithin_eq_none`: a search that comes to a circle runs out of every depth;
- `search_eq_none_iff`: with no circle, twice the number of objects is deep enough.
-/

namespace Bracketing.Tree.Heap

variable {h : Heap} {test : NodeId → Bool} {v w : Value} {s t : Search} {depth : Nat}

theorem member_of_members_eq {before after : List Value} (hm : h.members v = before ++ w :: after) :
    h.Member v w := by
  unfold Member
  rw [hm]
  exact List.mem_append_right _ List.mem_cons_self

/-- A search that stands at the first value, with a node found or not, may go down to the second. Nothing found, it
enters everything but a node that passes: it comes to a member with nothing found only if nothing passes in the members
before. Once a node is found it enters lists only. -/
inductive Pursues (h : Heap) (test : NodeId → Bool) : Bool × Value → Bool × Value → Prop
  | searching {v w : Value} {before after : List Value} (hv : ∀ n, v = .node n → test n = false)
      (hm : h.members v = before ++ w :: after) (hfree : ∀ u ∈ before, h.Free test u) :
      Pursues h test (false, v) (false, w)
  | found {v w : Value} (hv : ∀ n, v = .node n → test n = false) (hw : h.Member v w) :
      Pursues h test (false, v) (true, w)
  | listed {l : ListId} {w : Value} (hw : h.Member (.list l) w) : Pursues h test (true, .list l) (true, w)

/-- What a search goes down to is held by where it stood. -/
theorem Pursues.member {x y : Bool × Value} (hxy : h.Pursues test x y) : h.Member x.2 y.2 := by
  cases hxy with
  | searching _ hm _ => exact member_of_members_eq hm
  | found _ hw => exact hw
  | listed hw => exact hw

/-- From where it stands, the search can come to a place to which it can come back. -/
def Circling (h : Heap) (test : NodeId → Bool) (x : Bool × Value) : Prop :=
  ∃ y, Relation.ReflTransGen (h.Pursues test) x y ∧ Relation.TransGen (h.Pursues test) y y

/-- The search of the value comes to a circle. -/
def Circles (h : Heap) (test : NodeId → Bool) (v : Value) : Prop := h.Circling test (false, v)

theorem Circling.next {x : Bool × Value} (hx : h.Circling test x) : ∃ y, h.Pursues test x y ∧ h.Circling test y := by
  obtain ⟨y, hxy, hy⟩ := hx
  rcases Relation.ReflTransGen.cases_head hxy with rfl | ⟨z, hxz, hzy⟩
  · obtain ⟨z, hz, hzx⟩ := Relation.TransGen.head'_iff.1 hy
    exact ⟨z, hz, x, hzx, hy⟩
  · exact ⟨z, hxz, y, hzy, hy⟩

/-- A value whose search comes to a circle is not acyclic. -/
theorem Circles.not_acyclic (hv : h.Circles test v) : ¬ h.Acyclic v := by
  obtain ⟨y, hvy, hy⟩ := hv
  intro ha
  apply ha y.2
  · exact hvy.lift Prod.snd fun _ _ => Pursues.member
  · exact hy.lift Prod.snd fun _ _ => Pursues.member

/-! ## One level of a search -/

/-- The members of a value, searched one after another. -/
def inspectAll (h : Heap) (test : NodeId → Bool) (depth : Nat) (vs : List Value) (s : Search) : Option Search :=
  vs.foldlM (fun s w => h.inspectWithin (probe test) depth w s) s

/-- With nothing found, the members of all but a node that passes are searched. -/
theorem exists_inspectAll (h : Heap) (depth : Nat) (hv : ∀ n, v = .node n → test n = false) (hs : s.found = false) :
    ∃ s' : Search, s'.found = false ∧
      h.inspectWithin (probe test) (depth + 1) v s = h.inspectAll test depth (h.members v) s' := by
  cases v with
  | node n =>
    have hn : test n = false := hv n rfl
    refine ⟨{ found := false, tested := s.tested + 1 }, rfl, ?_⟩
    simp [inspectWithin, inspectAll, members, probe, hs, hn, List.foldlM_map]
  | list l => exact ⟨s, hs, rfl⟩
  | _ => exact ⟨s, hs, rfl⟩

/-- The members that come first decide how the others are searched. -/
theorem inspectAll_eq_none_iff {vs : List Value} : h.inspectAll test depth vs s = none ↔
    ∃ before w after t, vs = before ++ w :: after ∧ h.inspectAll test depth before s = some t ∧
      h.inspectWithin (probe test) depth w t = none := by
  constructor
  · induction vs generalizing s with
    | nil => intro hn; cases hn
    | cons v vs ih =>
      intro hn
      cases hv : h.inspectWithin (probe test) depth v s with
      | none => exact ⟨[], v, vs, s, rfl, rfl, hv⟩
      | some u =>
        simp only [inspectAll, List.foldlM_cons, hv, Option.bind_eq_bind, Option.bind_some] at hn
        obtain ⟨before, w, after, t, rfl, ht, hw⟩ := ih hn
        refine ⟨v :: before, w, after, t, rfl, ?_, hw⟩
        simpa [inspectAll, hv] using ht
  · rintro ⟨before, w, after, t, rfl, ht, hw⟩
    unfold inspectAll at ht ⊢
    rw [List.foldlM_append, ht]
    simp [hw]

/-- A search of members that found nothing had found nothing before, and nothing passes in any of them. -/
theorem inspectAll_silent {vs : List Value} (he : h.inspectAll test depth vs s = some t) (ht : t.found = false) :
    s.found = false ∧ ∀ v ∈ vs, h.Free test v :=
  foldlM_silent (P := h.Free test) (fun _ _ _ he ht => inspectWithin_silent he ht) he ht

/-- A search of members in which nothing passes finds nothing. -/
theorem inspectAll_quiet {vs : List Value} (hf : ∀ v ∈ vs, h.Free test v)
    (he : h.inspectAll test depth vs s = some t) (hs : s.found = false) : t.found = false :=
  foldlM_quiet (fun v hv _ _ he hs => (hf v hv).inspectWithin_quiet he hs) he hs

/-! ## Circles -/

/-- A search that comes to a circle runs out of every depth: at each level it goes on to a place from which the circle
is still ahead, unless it ran out before. -/
theorem Circling.inspectWithin_eq_none : ∀ {depth : Nat} {b : Bool} {v : Value} {s : Search},
    h.Circling test (b, v) → (b = false → s.found = false) → h.inspectWithin (probe test) depth v s = none
  | 0, _, _, _, _, _ => rfl
  | depth + 1, b, v, s, hx, hb => by
    -- whatever the members before one did, the search of that one runs out
    have hall : ∀ {before after : List Value} {w : Value} {s : Search},
        (∀ t, h.inspectAll test depth before s = some t → h.inspectWithin (probe test) depth w t = none) →
        h.inspectAll test depth (before ++ w :: after) s = none := by
      intro before after w s hw
      cases ht : h.inspectAll test depth before s with
      | some t => exact inspectAll_eq_none_iff.2 ⟨before, w, after, t, rfl, ht, hw t ht⟩
      | none =>
        obtain ⟨before', u, after', t, rfl, ht, hu⟩ := inspectAll_eq_none_iff.1 ht
        refine inspectAll_eq_none_iff.2 ⟨before', u, after' ++ w :: after, t, by simp, ht, hu⟩
    obtain ⟨y, hxy, hy⟩ := hx.next
    cases hxy with
    | searching hv hm hfree =>
      obtain ⟨s', hs', heq⟩ := exists_inspectAll h depth hv (hb rfl)
      rw [heq, hm]
      apply hall
      intro t ht
      exact Circling.inspectWithin_eq_none hy fun _ => inspectAll_quiet hfree ht hs'
    | found hv hw =>
      obtain ⟨s', -, heq⟩ := exists_inspectAll h depth hv (hb rfl)
      obtain ⟨before, after, hm⟩ := List.append_of_mem hw
      rw [heq, hm]
      apply hall
      intro t _
      exact Circling.inspectWithin_eq_none hy (by simp)
    | @listed l w hw =>
      obtain ⟨before, after, hm⟩ := List.append_of_mem hw
      show h.inspectAll test depth (h.members (.list l)) s = none
      rw [hm]
      apply hall
      intro t _
      exact Circling.inspectWithin_eq_none hy (by simp)

theorem Circles.inspectWithin_eq_none (hv : h.Circles test v) (depth : Nat) :
    h.inspectWithin (probe test) depth v {} = none :=
  Circling.inspectWithin_eq_none hv fun _ => rfl

/-- The first step of a search that runs out of depth. -/
theorem exists_pursues (hn : h.inspectWithin (probe test) (depth + 1) v s = none) :
    ∃ w t, h.Pursues test (s.found, v) (t.found, w) ∧ h.inspectWithin (probe test) depth w t = none := by
  cases hs : s.found with
  | true =>
    cases v with
    | list l =>
      have hall : h.inspectAll test depth (h.members (.list l)) s = none := hn
      obtain ⟨before, w, after, t, hm, ht, hw⟩ := inspectAll_eq_none_iff.1 hall
      have hfound : t.found = true := by
        by_contra hx
        have hsilent := (inspectAll_silent ht (by simpa using hx)).1
        simp [hs] at hsilent
      refine ⟨w, t, ?_, hw⟩
      rw [hfound]
      exact .listed (member_of_members_eq hm)
    | node n => simp [inspectWithin, probe, hs] at hn
    | _ => simp [inspectWithin] at hn
  | false =>
    have hv : ∀ n, v = .node n → test n = false := by
      rintro n rfl
      by_contra hx
      have hpass : test n = true := by simpa using hx
      simp [inspectWithin, probe, hs, hpass] at hn
    obtain ⟨s', hs', heq⟩ := exists_inspectAll h depth hv hs
    rw [heq] at hn
    obtain ⟨before, w, after, t, hm, ht, hw⟩ := inspectAll_eq_none_iff.1 hn
    refine ⟨w, t, ?_, hw⟩
    cases hfound : t.found with
    | false => exact .searching hv hm (inspectAll_silent ht hfound).2
    | true => exact .found hv (member_of_members_eq hm)

/-- A search that runs out of depth has made that many steps. -/
theorem exists_pursuit : ∀ {depth : Nat} {v : Value} {s : Search},
    h.inspectWithin (probe test) depth v s = none →
      ∃ xs, xs.length = depth ∧ ((s.found, v) :: xs).IsChain (h.Pursues test)
  | 0, v, s, _ => ⟨[], rfl, .singleton (s.found, v)⟩
  | depth + 1, v, s, hn => by
    obtain ⟨w, t, hstep, hw⟩ := exists_pursues hn
    obtain ⟨xs, hl, hc⟩ := exists_pursuit hw
    exact ⟨(t.found, w) :: xs, by simp [hl], .cons_cons hstep hc⟩

/-- Distinct places where a search can go on are at most two for every object. -/
theorem length_le_two_mul_extent {xs : List (Bool × Value)} (hd : xs.Nodup)
    (hm : ∀ x ∈ xs, ∃ w, h.Member x.2 w) : xs.length ≤ 2 * h.extent := by
  have hpart : ∀ b, (xs.filter fun x => x.1 == b).length ≤ h.extent := by
    intro b
    rw [← List.length_map (f := Prod.snd)]
    apply length_le_extent
    · refine List.Nodup.map_on ?_ (hd.filter _)
      intro x hx y hy hxy
      have hx := (List.mem_filter.1 hx).2
      have hy := (List.mem_filter.1 hy).2
      exact Prod.ext ((beq_iff_eq.1 hx).trans (beq_iff_eq.1 hy).symm) hxy
    · intro v hv
      obtain ⟨x, hx, rfl⟩ := List.mem_map.1 hv
      exact hm x (List.mem_filter.1 hx).1
  have hlen := List.length_eq_length_filter_add (l := xs) fun x => x.1 == true
  have htrue := hpart true
  have hfalse := hpart false
  have hnot : (xs.filter fun x => !(x.1 == true)) = xs.filter fun x => x.1 == false := by
    congr 1
    funext x
    cases x.1 <;> rfl
  rw [hnot] at hlen
  omega

/-- A search has no end just if it comes to a circle. -/
theorem search_eq_none_iff : h.search test v = none ↔ h.Circles test v := by
  constructor
  · intro hn
    by_contra hno
    obtain ⟨xs, hl, hc⟩ := exists_pursuit hn
    have hfree : ∀ y, Relation.ReflTransGen (h.Pursues test) (false, v) y →
        ¬ Relation.TransGen (h.Pursues test) y y := fun y hy hyy => hno ⟨y, hy, hyy⟩
    have hd := (nodup_of_isChain hfree hc).sublist (List.dropLast_sublist _)
    have hm : ∀ x ∈ ((false, v) :: xs).dropLast, ∃ w, h.Member x.2 w := by
      intro x hx
      obtain ⟨y, hxy⟩ := exists_next_of_isChain hc x hx
      exact ⟨y.2, hxy.member⟩
    have hle := length_le_two_mul_extent hd hm
    simp only [List.length_dropLast, List.length_cons] at hle
    omega
  · intro hv
    exact hv.inspectWithin_eq_none _

end Bracketing.Tree.Heap
