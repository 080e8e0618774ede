import Bracketing.Proofs.Source.Order
import Bracketing.Proofs.Tree.Plain
import Bracketing.Tree.Attach

/-!
# Token ranges

Halving finds a place where a test changes from failing to holding, whatever the test (`halve_boundary`). The range of a
span is therefore within its tokens even if they are in no order (`rangeOf_bounds`).

Tokens in source order come in three runs: those that start before a span, those that lie in it, and those that run past
it (`eq_runs`). The range of the span is the middle one (`rangeOf_first`, `rangeOf_stop`).

Attaching tokens gives every located node below the root the range of its span and changes nothing else (`attached`).
-/

namespace Bracketing.Tree

open Bracketing.Source

/-! ## Halving -/

/-- Where halving ends, the test holds, and right before it the test fails, as far as that is inside the interval. -/
theorem halve_boundary (test : Nat → Option Bool) (lo hi : Nat) (hle : lo ≤ hi)
    (ht : ∀ i, i < hi → (test i).isSome = true) : ∃ k, halve test lo hi = some k ∧ lo ≤ k ∧ k ≤ hi ∧
      (k < hi → test k = some true) ∧ (lo < k → test (k - 1) = some false) := by
  fun_induction halve test lo hi with
  | case1 lo hi hlt hm ih =>
    obtain ⟨k, hk, hlo, hhi, hholds, hfails⟩ := ih (by omega) fun i hi => ht i (by omega)
    refine ⟨k, hk, hlo, by omega, fun _ => ?_, hfails⟩
    rcases Nat.lt_or_eq_of_le hhi with hlt' | rfl
    · exact hholds hlt'
    · exact hm
  | case2 lo hi hlt hm ih =>
    obtain ⟨k, hk, hlo, hhi, hholds, hfails⟩ := ih (by omega) ht
    refine ⟨k, hk, by omega, hhi, hholds, fun _ => ?_⟩
    rcases Nat.lt_or_eq_of_le hlo with hlt' | rfl
    · exact hfails hlt'
    · exact hm
  | case3 lo hi hlt hm =>
    have := ht ((lo + hi) / 2) (by omega)
    simp [hm] at this
  | case4 lo hi hlt => exact ⟨lo, rfl, Nat.le_refl _, by omega, by omega, by omega⟩

/-- Items in an order in which a test goes on holding: those that fail it come first. -/
theorem eq_filter_append_filter {α : Type} {p : α → Bool} : ∀ {xs : List α},
    xs.Pairwise (fun a b => p a = true → p b = true) → xs = xs.filter (fun x => !p x) ++ xs.filter p
  | [], _ => rfl
  | x :: xs, h => by
    obtain ⟨hx, hxs⟩ := List.pairwise_cons.1 h
    cases hp : p x with
    | true =>
      have hall : ∀ y ∈ xs, p y = true := fun y hy => hx y hy hp
      have hnone : xs.filter (fun x => !p x) = [] := List.filter_eq_nil_iff.2 fun y hy => by simp [hall y hy]
      rw [List.filter_cons_of_neg (by simp [hp]), List.filter_cons_of_pos hp, hnone, List.filter_eq_self.2 hall]
      rfl
    | false =>
      rw [List.filter_cons_of_pos (by simp [hp]), List.filter_cons_of_neg (by simp [hp]), List.cons_append,
        ← eq_filter_append_filter hxs]

section Search

variable {tokens : List Token} {test : Span → Bool}

/-- The search for a token ends at one that passes the test, right after one that does not. -/
theorem firstToken_boundary (tokens : List Token) (test : Span → Bool) :
    ∃ k, Location.firstToken (tokens.map some) test = some k ∧ k ≤ tokens.length ∧
      (∀ t, tokens[k]? = some t → test t.span = true) ∧
      (∀ t, 0 < k → tokens[k - 1]? = some t → test t.span = false) := by
  have hat : ∀ i : Nat, ((tokens.map some)[i]?.join).map (fun t : Token => test t.span) =
      tokens[i]?.map fun t : Token => test t.span := by
    intro i
    rw [List.getElem?_map]
    cases tokens[i]? <;> rfl
  have htotal : ∀ i, i < (tokens.map some).length →
      (((tokens.map some)[i]?.join).map (fun t : Token => test t.span)).isSome = true := by
    intro i hi
    rw [hat, List.getElem?_eq_getElem (by simpa using hi)]
    rfl
  obtain ⟨k, hk, -, hle, hholds, hfails⟩ := halve_boundary _ 0 (tokens.map some).length (Nat.zero_le _) htotal
  rw [hat] at hholds hfails
  refine ⟨k, hk, by simpa using hle, fun t ht => ?_, fun t hpos ht => ?_⟩
  · obtain ⟨hlt, -⟩ := List.getElem?_eq_some_iff.1 ht
    simpa [ht] using hholds (by simpa using hlt)
  · simpa [ht] using hfails hpos

/-- In tokens in which a property once lost stays lost, the search for its loss counts those that have it. -/
theorem firstToken_eq {p : Token → Bool} (hp : ∀ t ∈ tokens, test t.span = !p t)
    (h : tokens.Pairwise fun a b => (!p a) = true → (!p b) = true) :
    Location.firstToken (tokens.map some) test = some (tokens.filter p).length := by
  obtain ⟨k, hk, hle, hholds, hfails⟩ := firstToken_boundary tokens test
  have heq := eq_filter_append_filter h
  simp only [Bool.not_not] at heq
  have hA : ∀ t ∈ tokens.filter p, test t.span = false := fun t ht => by
    rw [List.mem_filter] at ht
    simp [hp t ht.1, ht.2]
  have hB : ∀ t ∈ tokens.filter (fun t => !p t), test t.span = true := fun t ht => by
    rw [List.mem_filter] at ht
    rw [hp t ht.1, ht.2]
  rw [hk, Option.some.injEq]
  generalize tokens.filter p = A at heq hA ⊢
  generalize tokens.filter (fun t => !p t) = B at heq hB
  rcases Nat.lt_trichotomy k A.length with hlt | rfl | hlt
  · have hpass := hholds A[k] (by rw [heq, List.getElem?_append_left hlt, List.getElem?_eq_getElem hlt])
    rw [hA _ (List.getElem_mem hlt)] at hpass
    cases hpass
  · rfl
  · have hlt' : k - 1 - A.length < B.length := by
      have := congrArg List.length heq
      rw [List.length_append] at this
      omega
    have hfail := hfails B[k - 1 - A.length] (by omega)
      (by rw [heq, List.getElem?_append_right (by omega), List.getElem?_eq_getElem hlt'])
    rw [hB _ (List.getElem_mem hlt')] at hfail
    cases hfail

end Search

/-! ## The range of a span -/

/-- The tokens that a span covers, found by two searches. -/
def rangeOf (tokens : List Token) (s : Span) : TokenRange :=
  let first := (Location.firstToken (tokens.map some) fun t => 0 ≤ t.start.compare s.start).getD 0
  let stop := (Location.firstToken (tokens.map some) fun t => 0 < t.stop.compare s.stop).getD 0
  { tokens := tokens.map some, first := first, stop := (max first stop : Nat) }

/-- The location with the tokens that its span covers, whatever range it had. -/
def Location.covering (tokens : List Token) (l : Location) : Location where
  span := l.span
  range := some (rangeOf tokens l.span)

theorem Location.attach_eq (tokens : List Token) (l : Location) :
    l.attach (tokens.map some) = (l.covering tokens, none) := by
  obtain ⟨first, hfirst, -⟩ := firstToken_boundary tokens fun t => 0 ≤ t.start.compare l.span.start
  obtain ⟨stop, hstop, -⟩ := firstToken_boundary tokens fun t => 0 < t.stop.compare l.span.stop
  simp only [Location.attach, Location.covering, rangeOf, hfirst, hstop, Option.getD_some]

/-- A range lies within its tokens, in whatever order these are. -/
theorem rangeOf_bounds (tokens : List Token) (s : Span) :
    0 ≤ (rangeOf tokens s).first ∧ (rangeOf tokens s).first ≤ (rangeOf tokens s).stop ∧
      (rangeOf tokens s).stop ≤ (rangeOf tokens s).tokens.length := by
  obtain ⟨first, hfirst, hle, -⟩ := firstToken_boundary tokens fun t => 0 ≤ t.start.compare s.start
  obtain ⟨stop, hstop, hle', -⟩ := firstToken_boundary tokens fun t => 0 < t.stop.compare s.stop
  simp only [rangeOf, hfirst, hstop, Option.getD_some, List.length_map]
  omega

section Sorted

variable {tokens : List Token} {s : Span}

/-- The tokens are natural and in source order, by their starts and by their ends. -/
structure InOrder (tokens : List Token) : Prop where
  natural : ∀ t ∈ tokens, t.span.Natural
  starts : tokens.Pairwise fun a b => ¬ b.span.start.Before a.span.start
  stops : tokens.Pairwise fun a b => ¬ b.span.stop.Before a.span.stop

theorem InOrder.not_startsBefore (h : InOrder tokens) (s : Span) :
    tokens.Pairwise fun a b => (!a.startsBefore s) = true → (!b.startsBefore s) = true := by
  refine h.starts.imp fun hab ha => ?_
  simp only [Token.startsBefore, Bool.not_eq_true', decide_eq_false_iff_not] at ha ⊢
  exact fun hb => ha (hb.le_trans hab)

theorem InOrder.not_endsBy (h : InOrder tokens) (s : Span) :
    tokens.Pairwise fun a b => (!a.endsBy s) = true → (!b.endsBy s) = true := by
  refine h.stops.imp fun hab ha => ?_
  simp only [Token.endsBy, Bool.not_eq_true', decide_eq_false_iff_not, not_not] at ha ⊢
  exact ha.trans_le hab

/-- Tokens in order start before a span, lie in it, or run past it, one after another. -/
theorem InOrder.eq_runs (h : InOrder tokens) (s : Span) :
    tokens = tokens.filter (·.startsBefore s) ++ tokens.filter (·.liesIn s) ++ tokens.filter (·.runsPast s) := by
  have hstarts := eq_filter_append_filter (h.not_startsBefore s)
  have hstops := eq_filter_append_filter ((h.not_endsBy s).filter fun t => !t.startsBefore s)
  simp only [Bool.not_not, List.filter_filter] at hstarts hstops
  conv_lhs => rw [hstarts, hstops]
  simp only [List.append_assoc, Token.liesIn_eq, Token.runsPast_eq, Bool.and_comm]

theorem InOrder.firstToken_starts (h : InOrder tokens) (hs : s.Natural) :
    Location.firstToken (tokens.map some) (fun t => 0 ≤ t.start.compare s.start) =
      some (tokens.filter (·.startsBefore s)).length := by
  refine firstToken_eq (fun t ht => ?_) (h.not_startsBefore s)
  simp [Position.compare_nonneg_iff (h.natural t ht).1 hs.1, Token.startsBefore]

theorem InOrder.firstToken_stops (h : InOrder tokens) (hs : s.Natural) :
    Location.firstToken (tokens.map some) (fun t => 0 < t.stop.compare s.stop) =
      some (tokens.filter (·.endsBy s)).length := by
  refine firstToken_eq (fun t ht => ?_) (h.not_endsBy s)
  simp [Position.compare_pos_iff (h.natural t ht).2 hs.2, Token.endsBy]

/-- The range starts after the tokens that start before the span. -/
theorem InOrder.rangeOf_first (h : InOrder tokens) (hs : s.Natural) :
    (rangeOf tokens s).first = (tokens.filter (·.startsBefore s)).length := by
  simp [rangeOf, h.firstToken_starts hs]

/-- The range ends after the tokens that lie in the span. -/
theorem InOrder.rangeOf_stop (h : InOrder tokens) (hs : s.Natural) : (rangeOf tokens s).stop =
    (tokens.filter (·.startsBefore s)).length + (tokens.filter (·.liesIn s)).length := by
  have hends : (tokens.filter (·.endsBy s)).length =
      ((tokens.filter (·.startsBefore s)).filter (·.endsBy s)).length + (tokens.filter (·.liesIn s)).length := by
    conv_lhs => rw [eq_filter_append_filter (h.not_startsBefore s)]
    simp only [Bool.not_not, List.filter_append, List.length_append, List.filter_filter, Token.liesIn_eq, Bool.and_comm]
  have hle := List.length_filter_le (·.endsBy s) (tokens.filter (·.startsBefore s))
  simp only [rangeOf, h.firstToken_starts hs, h.firstToken_stops hs, Option.getD_some]
  cases hin : tokens.filter (·.liesIn s) with
  | nil =>
    rw [hin, List.length_nil] at hends
    simp only [List.length_nil]
    omega
  | cons t rest =>
    -- what ends by the end of the span comes before what lies in it
    have hall : (tokens.filter (·.startsBefore s)).filter (·.endsBy s) = tokens.filter (·.startsBefore s) := by
      refine List.filter_eq_self.2 fun a ha => ?_
      have hpair := h.not_endsBy s
      rw [h.eq_runs s, List.append_assoc, List.pairwise_append] at hpair
      have ht : t ∈ tokens.filter (·.liesIn s) ++ tokens.filter (·.runsPast s) := by simp [hin]
      have hin' : t.liesIn s = true := (List.mem_filter.1 (hin ▸ List.mem_cons_self)).2
      rw [Token.liesIn_eq, Bool.and_eq_true] at hin'
      by_contra hne
      have := hpair.2.2 a ha t ht (by simpa using hne)
      simp [hin'.2] at this
    rw [hall, hin] at hends
    rw [hends]
    omega

end Sorted

/-! ## Attaching tokens to a tree -/

namespace Heap

variable {h h' : Heap}

/-- The node has a location of the heap, and this is it. -/
def LocatedAt (h : Heap) (n : NodeId) (loc : Location) : Prop :=
  ∃ l, (h.node n).location = some l ∧ h.locations[l.index]? = some loc

theorem LocatedAt.location? {n : NodeId} {loc : Location} (hn : h.LocatedAt n loc) : h.location? n = some loc := by
  obtain ⟨l, hl, hloc⟩ := hn
  simp [Heap.location?, hl, location, Array.getD_eq_getD_getElem?, hloc]

/-- The second heap has the objects of the first, where the given nodes have the tokens that they cover and other
locations are as they were or have been given theirs as well. -/
structure Attached (tokens : List Token) (ns : List NodeId) (h h' : Heap) : Prop where
  nodes : h'.nodes = h.nodes
  lists : h'.lists = h.lists
  maps : h'.maps = h.maps
  size : h'.locations.size = h.locations.size
  location : ∀ (i : Nat) (loc : Location), h.locations[i]? = some loc →
    h'.locations[i]? = some loc ∨ h'.locations[i]? = some (loc.covering tokens)
  located : ∀ n ∈ ns, ∀ loc, h.LocatedAt n loc → h'.LocatedAt n (loc.covering tokens)

theorem Attached.node_eq {tokens : List Token} {ns : List NodeId} (ha : Attached tokens ns h h') (n : NodeId) :
    h'.node n = h.node n := by
  simp [node, ha.nodes]

/-- One location is given its tokens, all others stay as they were. -/
theorem getElem?_modifyLocation {tokens : List Token} {l : LocationId} {i : Nat} {loc : Location}
    (hloc : h.locations[i]? = some loc) : (h.modifyLocation l fun _ => (h.location l).covering tokens).locations[i]? =
      some (if i = l.index then loc.covering tokens else loc) := by
  rw [modifyLocation, Array.getElem?_modify]
  by_cases hi : i = l.index
  · subst hi
    simp [hloc, location, Array.getD_eq_getD_getElem?]
  · rw [if_neg (Ne.symm hi), if_neg hi, hloc]

theorem attached_attachTo (tokens : List Token) : ∀ (ns : List NodeId) (h : Heap),
    ∃ h', attachTo (tokens.map some) ns h = (h', none) ∧ Attached tokens ns h h'
  | [], h => ⟨h, rfl, rfl, rfl, rfl, rfl, fun _ _ hl => .inl hl, by simp⟩
  | n :: ns, h => by
    cases hn : (h.node n).location with
    | none =>
      obtain ⟨h', he, ha⟩ := attached_attachTo tokens ns h
      refine ⟨h', by rw [attachTo, hn]; exact he, { ha with located := List.forall_mem_cons.2 ⟨?_, ha.located⟩ }⟩
      rintro loc ⟨l, hl, -⟩
      rw [hn] at hl
      cases hl
    | some l =>
      obtain ⟨h', he, ha⟩ := attached_attachTo tokens ns (h.modifyLocation l fun _ => (h.location l).covering tokens)
      refine ⟨h', ?_, ha.nodes, ha.lists, ha.maps, ha.size.trans (by simp [modifyLocation]), fun i loc hloc => ?_,
        List.forall_mem_cons.2 ⟨?_, ?_⟩⟩
      · rw [attachTo, hn]
        simp only [Location.attach_eq]
        exact he
      · have hnew := ha.location i _ (getElem?_modifyLocation hloc)
        split at hnew
        · exact .inr (hnew.elim id id)
        · exact hnew
      · rintro loc ⟨l', hl', hloc⟩
        obtain rfl : l = l' := by simpa [hn] using hl'
        have hnew := ha.location l.index _ (getElem?_modifyLocation hloc)
        rw [if_pos rfl] at hnew
        exact ⟨l, by rw [ha.node_eq]; exact hn, hnew.elim id id⟩
      · rintro m hm loc ⟨l', hl', hloc⟩
        have hnew := ha.located m hm _ ⟨l', hl', getElem?_modifyLocation hloc⟩
        split at hnew <;> exact hnew

/-- Attaching tokens to an acyclic tree comes to its end and gives every located node below the root its tokens. -/
theorem Acyclic.attached {v : Value} (hv : h.Acyclic v) (tokens : List Token) :
    ∃ h' ns, h.attach v (tokens.map some) = (h', none) ∧ Attached tokens ns h h' ∧
      ∀ n, n ∈ ns ↔ h.Below v (.node n) := by
  obtain ⟨ns, hns, hmem, -⟩ := hv.exists_preorder
  obtain ⟨h', he, ha⟩ := attached_attachTo tokens ns h
  exact ⟨h', ns, by rw [attach, hns]; exact he, ha, hmem⟩

end Heap

end Bracketing.Tree
