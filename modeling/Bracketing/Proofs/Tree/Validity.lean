import Bracketing.Proofs.Source.Order
import Bracketing.Proofs.Tree.Sightings

/-!
# What a check of a tree promises

A way down from a value passes through fields of nodes and items of lists (`Descends`); the nodes passed are kept, the
nearest first. A tree is `Valid` for a grammar if every place for a node on a way down holds a node of the grammar and
every location is in order under the nearest location above it. Neither definition looks at how a tree is checked.

* **Exactness** (`problemsWithin_eq_nil_iff`): a check finds no problem just in a valid tree without missing nodes.
* **Stops** (`problemsWithin_stop`): a check gives a list of problems unless it comes, through nodes of the grammar, to a
  missing node that the grammar takes for a node (`Stumbles`).
* **Nesting** (`Valid.contains`): in a valid tree whose coordinates are natural, a location lies in that of every node
  above it, although each was checked against one other only.
-/

namespace Bracketing.Tree

open Bracketing.Source

/-! ## Locations in order -/

/-- A location is in order under the span of the nearest located node above it, if there is one. -/
structure Location.WellPlaced (l : Location) (outer : Option Span) : Prop where
  ordered : l.span.start.compare l.span.stop ≤ 0
  inside : ∀ s, outer = some s → s.contains l.span = true
  tokens : ∀ r, l.range = some r → 0 ≤ r.first ∧ r.first ≤ r.stop ∧ r.stop ≤ r.tokens.length

theorem Location.defects_eq_nil_iff {l : Location} {outer : Option Span} :
    l.defects outer = [] ↔ l.WellPlaced outer := by
  have hordered : (if 0 < l.span.start.compare l.span.stop then [Defect.startAfterEnd l.span] else []) = [] ↔
      l.span.start.compare l.span.stop ≤ 0 := by
    rw [Int64.le_iff_toInt_le]
    split <;> rename_i hlt <;> rw [Int64.lt_iff_toInt_lt] at hlt
    · simpa using hlt
    · simpa using hlt
  unfold Location.defects
  rw [List.append_eq_nil_iff, List.append_eq_nil_iff, hordered]
  constructor
  · rintro ⟨⟨hord, hin⟩, htok⟩
    refine ⟨hord, ?_, ?_⟩
    · rintro s rfl
      by_contra hn
      simp [hn] at hin
    · intro r hr
      rw [hr] at htok
      by_contra hn
      have hbad : (r.first < 0 || r.tokens.length < r.stop || r.stop < r.first) = true := by
        simp only [Bool.or_eq_true, decide_eq_true_eq]
        omega
      simp [hbad] at htok
  · rintro ⟨hord, hin, htok⟩
    refine ⟨⟨hord, ?_⟩, ?_⟩
    · cases outer with
      | none => rfl
      | some s => simp [hin s rfl]
    · cases hr : l.range with
      | none => rfl
      | some r =>
        have hgood : (r.first < 0 || r.tokens.length < r.stop || r.stop < r.first) = false := by
          simp only [Bool.or_eq_false_iff, decide_eq_false_iff_not]
          have := htok r hr
          omega
        simp [hgood]

/-! ## Ways down -/

/-- The value is a place for a node, be there a node or not. -/
def Value.ForNode (v : Value) : Prop := v = .noNode ∨ ∃ n, v = .node n

namespace Heap

variable {h : Heap} {g : Grammar}

/-- Fields and items lead down from the first value to the second, past these nodes, the nearest to the second first. -/
inductive Descends (h : Heap) : Value → List NodeId → Value → Prop
  | here (v : Value) : Descends h v [] v
  | field {n : NodeId} {e : String × Value} {above : List NodeId} {w : Value} (he : e ∈ (h.node n).fields.entries)
      (hw : Descends h e.2 above w) : Descends h (.node n) (above ++ [n]) w
  | item {l : ListId} {v : Value} {above : List NodeId} {w : Value} (hv : v ∈ h.list l) (hw : Descends h v above w) :
      Descends h (.list l) above w

/-- Every node passed on the way down has been come to. -/
theorem Descends.passed {v w : Value} {above : List NodeId} (hw : h.Descends v above w) {near far : List NodeId}
    {m : NodeId} (hm : above = near ++ m :: far) : h.Descends v far (.node m) := by
  induction hw generalizing far with
  | here => simp at hm
  | @field n e above w he hw ih =>
    rcases List.eq_nil_or_concat far with rfl | ⟨far', k, rfl⟩
    · have hmn : n = m := by simpa using congrArg List.getLast? hm
      subst hmn
      exact .here _
    · rw [List.concat_eq_append, ← List.cons_append, ← List.append_assoc] at hm
      obtain ⟨habove, hk⟩ := List.append_inj' hm rfl
      obtain rfl : n = k := List.head_eq_of_cons_eq hk
      rw [List.concat_eq_append]
      exact .field he (ih habove)
  | item hv _ ih => exact .item hv (ih hm)

theorem Descends.isBelow {v w : Value} {above : List NodeId} (hw : h.Descends v above w) : h.Below v w := by
  induction hw with
  | here => exact .refl
  | field he _ ih => exact .head (List.mem_map_of_mem he) ih
  | item hv _ ih => exact .head hv ih

/-- The tree below a value is valid for a grammar: every place for a node holds a node of the grammar, and every
location is in order under the nearest one above it on the way. -/
structure Valid (h : Heap) (g : Grammar) (v : Value) : Prop where
  nodes : ∀ {above w}, h.Descends v above w → w.ForNode → g.isNode h w = true
  locations : ∀ {above n loc}, h.Descends v above (.node n) → h.location? n = some loc →
    loc.WellPlaced (h.nearestSpan above)

/-- A way past nodes of the grammar leads to a missing node that the grammar takes for a node. -/
def Stumbles (h : Heap) (g : Grammar) (v : Value) : Prop :=
  ∃ above, h.Descends v above .noNode ∧ (∀ m ∈ above, g.isNode h (.node m) = true) ∧ g.isNode h .noNode = true

/-! ## One value of a check -/

/-- The value is as it should be under the nodes above it, apart from what is below it. -/
def Fits (h : Heap) (g : Grammar) (above : List NodeId) (w : Value) : Prop :=
  w ≠ .noNode ∧ ∀ n, w = .node n → g.isNode h (.node n) = true ∧
    ∀ loc, h.location? n = some loc → loc.WellPlaced (h.nearestSpan above)

/-- The problems of members, one after another, behind others. -/
theorem problems_eq_nil_iff {α ε β : Type} {f : α → Except ε (List β)} {own : List β} : ∀ {as : List α},
    (do let below ← as.mapM f; return own ++ below.flatten : Except ε (List β)) = .ok [] ↔
      own = [] ∧ ∀ a ∈ as, f a = .ok [] := by
  intro as
  induction as with
  | nil => simp [pure, Except.pure, bind, Except.bind]
  | cons a as ih =>
    rw [List.mapM_cons, List.forall_mem_cons]
    cases hfa : f a with
    | error x => simp [bind, Except.bind]
    | ok bs =>
      cases hm : as.mapM f with
      | error x =>
        rw [hm] at ih
        simp only [bind, Except.bind] at ih ⊢
        simp only [reduceCtorEq, false_iff, not_and] at ih ⊢
        exact fun ho _ => ih ho
      | ok bss =>
        rw [hm] at ih
        simp only [bind, Except.bind, pure, Except.pure, Except.ok.injEq, List.append_eq_nil_iff,
          List.flatten_cons] at ih ⊢
        grind

/-- There is no answer, for one reason, just if the condition holds. -/
def StopsJustIf {ε β : Type} (x : ε) (S : Prop) (r : Except ε β) : Prop := (S ∧ r = .error x) ∨ (¬ S ∧ ∃ b, r = .ok b)

/-- The problems of members are not answered just if those of one member are not. -/
theorem problems_stop {α ε β : Type} {f : α → Except ε (List β)} {own : List β} {x : ε} {S : α → Prop} :
    ∀ {as : List α}, (∀ a ∈ as, StopsJustIf x (S a) (f a)) → StopsJustIf x (∃ a ∈ as, S a)
      (do let below ← as.mapM f; return own ++ below.flatten : Except ε (List β)) := by
  intro as
  induction as with
  | nil => exact fun _ => .inr ⟨by simp, own, by simp [pure, Except.pure, bind, Except.bind]⟩
  | cons a as ih =>
    intro hf
    rw [List.mapM_cons]
    rcases hf a List.mem_cons_self with ⟨hS, hfa⟩ | ⟨hS, b, hfa⟩ <;> rw [hfa]
    · exact .inl ⟨⟨a, List.mem_cons_self, hS⟩, rfl⟩
    · rcases ih fun c hc => hf c (List.mem_cons_of_mem a hc) with ⟨⟨c, hc, hSc⟩, hstop⟩ | ⟨hnone, bs, hbs⟩
      · refine .inl ⟨⟨c, List.mem_cons_of_mem a hc, hSc⟩, ?_⟩
        cases hm : as.mapM f with
        | error y =>
          rw [hm] at hstop
          exact hstop
        | ok bss =>
          rw [hm] at hstop
          cases hstop
      · refine .inr ⟨by simpa [hS] using hnone, ?_⟩
        cases hm : as.mapM f with
        | error y =>
          rw [hm] at hbs
          cases hbs
        | ok bss => exact ⟨_, rfl⟩

section Check

variable {depth : Nat} {above : List NodeId} {place : String}

theorem problemsWithin_node {n : NodeId} (hn : g.isNode h (.node n) = true) (parent : Option Span) :
    h.problemsWithin g (depth + 1) (.node n) parent place = (do
      let below ← (h.node n).fields.entries.mapM fun e =>
        h.problemsWithin g depth e.2 (((h.location? n).map (·.span)).or parent) (h.tagged place n ++ "." ++ e.1)
      return (((h.location? n).map (·.defects parent)).getD []).map (Problem.mk (h.tagged place n)) ++ below.flatten) := by
  rw [problemsWithin, if_pos hn]
  rfl

theorem problemsWithin_list (l : ListId) (parent : Option Span) :
    h.problemsWithin g (depth + 1) (.list l) parent place = (do
      let below ← (h.list l).zipIdx.mapM fun e =>
        h.problemsWithin g depth e.1 parent (place ++ "[" ++ toString e.2 ++ "]")
      return [] ++ below.flatten) := by
  rw [problemsWithin]
  rfl

/-- What fits all the way down fits at the start and below every field. -/
theorem descends_node_iff {P : List NodeId → Value → Prop} {n : NodeId} :
    (∀ mid w, h.Descends (.node n) mid w → P mid w) ↔ P [] (.node n) ∧
      ∀ e ∈ (h.node n).fields.entries, ∀ mid w, h.Descends e.2 mid w → P (mid ++ [n]) w := by
  constructor
  · exact fun hall => ⟨hall _ _ (.here _), fun e he mid w hw => hall _ _ (.field he hw)⟩
  · rintro ⟨hhere, hfields⟩ mid w hw
    cases hw with
    | here => exact hhere
    | field he hw => exact hfields _ he _ _ hw

theorem descends_list_iff {P : List NodeId → Value → Prop} {l : ListId} :
    (∀ mid w, h.Descends (.list l) mid w → P mid w) ↔ P [] (.list l) ∧
      ∀ v ∈ h.list l, ∀ mid w, h.Descends v mid w → P mid w := by
  constructor
  · exact fun hall => ⟨hall _ _ (.here _), fun v hv mid w hw => hall _ _ (.item hv hw)⟩
  · rintro ⟨hhere, hitems⟩ mid w hw
    cases hw with
    | here => exact hhere
    | item hv hw => exact hitems _ hv _ _ hw

/-- Nothing is below what has no members. -/
theorem descends_flat {v w : Value} {mid : List NodeId} (hn : ∀ n, v ≠ .node n) (hl : ∀ l, v ≠ .list l)
    (hw : h.Descends v mid w) : mid = [] ∧ w = v := by
  cases hw with
  | here => exact ⟨rfl, rfl⟩
  | field => exact absurd rfl (hn _)
  | item => exact absurd rfl (hl _)

/-- A node of the grammar has no problem of its own just if it fits. -/
theorem own_eq_nil_iff {n : NodeId} (hn : g.isNode h (.node n) = true) :
    (((h.location? n).map (·.defects (h.nearestSpan above))).getD []).map (Problem.mk (h.tagged place n)) = [] ↔
      h.Fits g above (.node n) := by
  have hfits : h.Fits g above (.node n) ↔
      ∀ loc, h.location? n = some loc → loc.WellPlaced (h.nearestSpan above) := by simp [Fits, hn]
  rw [List.map_eq_nil_iff, hfits]
  cases h.location? n with
  | none => simp
  | some loc => simp [Location.defects_eq_nil_iff]

/-- A check finds nothing just if everything on every way down fits. -/
theorem problemsWithin_eq_nil_iff : ∀ {depth : Nat} {v : Value} (above : List NodeId) (place : String),
    h.Shallow depth v → (h.problemsWithin g depth v (h.nearestSpan above) place = .ok [] ↔
      ∀ mid w, h.Descends v mid w → h.Fits g (mid ++ above) w)
  | 0, _, _, _, hv => hv.not_zero.elim
  | depth + 1, v, above, place, hv => by
    cases v with
    | node n =>
      rw [descends_node_iff]
      cases hn : g.isNode h (.node n) with
      | false => simp [problemsWithin, hn, Fits]
      | true =>
        rw [problemsWithin_node hn, problems_eq_nil_iff, own_eq_nil_iff hn, ← nearestSpan_cons]
        refine and_congr_right fun _ => forall₂_congr fun e he => ?_
        rw [problemsWithin_eq_nil_iff (n :: above) _ (hv.member (List.mem_map_of_mem he))]
        simp only [List.append_assoc, List.singleton_append]
    | list l =>
      rw [descends_list_iff, problemsWithin_list, problems_eq_nil_iff]
      have hfits : h.Fits g ([] ++ above) (.list l) := by simp [Fits]
      refine and_congr (iff_of_true rfl hfits) ⟨fun hall w hw => ?_, fun hall e he => ?_⟩
      · obtain ⟨i, hi⟩ := List.getElem?_of_mem hw
        have he : (w, i) ∈ (h.list l).zipIdx := List.mem_zipIdx_iff_getElem?.2 hi
        exact (problemsWithin_eq_nil_iff above _ (hv.member hw)).1 (hall _ he)
      · have hw : e.1 ∈ h.list l := List.mem_of_getElem? (List.mem_zipIdx_iff_getElem?.1 he)
        exact (problemsWithin_eq_nil_iff above _ (hv.member hw)).2 (hall _ hw)
    | noNode =>
      have hfits : ¬ h.Fits g ([] ++ above) .noNode := by simp [Fits]
      refine ⟨fun hp => ?_, fun hall => absurd (hall [] .noNode (.here _)) hfits⟩
      rw [problemsWithin] at hp
      split at hp <;> cases hp
    | _ =>
      refine ⟨fun _ mid w hw => ?_, fun _ => rfl⟩
      obtain ⟨rfl, rfl⟩ := descends_flat (by simp) (by simp) hw
      simp [Fits]

theorem stumbles_node_iff {n : NodeId} (hn : g.isNode h (.node n) = true) :
    h.Stumbles g (.node n) ↔ ∃ e ∈ (h.node n).fields.entries, h.Stumbles g e.2 := by
  constructor
  · rintro ⟨above, hw, hall, hno⟩
    cases hw with
    | field he hw => exact ⟨_, he, _, hw, fun m hm => hall m (List.mem_append_left _ hm), hno⟩
  · rintro ⟨e, he, above, hw, hall, hno⟩
    refine ⟨_, .field he hw, fun m hm => ?_, hno⟩
    rcases List.mem_append.1 hm with hm | hm
    · exact hall m hm
    · rwa [List.mem_singleton.1 hm]

theorem stumbles_list_iff {l : ListId} : h.Stumbles g (.list l) ↔ ∃ v ∈ h.list l, h.Stumbles g v := by
  constructor
  · rintro ⟨above, hw, hall, hno⟩
    cases hw with
    | item hv hw => exact ⟨_, hv, _, hw, hall, hno⟩
  · rintro ⟨v, hv, above, hw, hall, hno⟩
    exact ⟨above, .item hv hw, hall, hno⟩

/-- A check stops just where it stumbles, and gives a list of problems otherwise. -/
theorem problemsWithin_stop : ∀ {depth : Nat} {v : Value} (parent : Option Span) (place : String),
    h.Shallow depth v → StopsJustIf .missing (h.Stumbles g v) (h.problemsWithin g depth v parent place)
  | 0, _, _, _, hv => hv.not_zero.elim
  | depth + 1, v, parent, place, hv => by
    cases v with
    | node n =>
      cases hn : g.isNode h (.node n) with
      | false =>
        refine .inr ⟨?_, _, by rw [problemsWithin, if_neg (by simp [hn])]⟩
        rintro ⟨above, hw, hall, -⟩
        cases hw with
        | field => exact absurd (hall n (by simp)) (by simp [hn])
      | true =>
        rw [problemsWithin_node hn, stumbles_node_iff hn]
        exact problems_stop fun e he => problemsWithin_stop _ _ (hv.member (List.mem_map_of_mem he))
    | list l =>
      have hitems : h.Stumbles g (.list l) ↔ ∃ e ∈ (h.list l).zipIdx, h.Stumbles g e.1 := by
        rw [stumbles_list_iff]
        nth_rewrite 1 [← List.zipIdx_map_fst 0 (h.list l)]
        simp only [List.mem_map, exists_exists_and_eq_and]
      rw [problemsWithin_list, hitems]
      refine problems_stop fun e he => problemsWithin_stop _ _ (hv.member ?_)
      exact List.mem_of_getElem? (List.mem_zipIdx_iff_getElem?.1 he)
    | noNode =>
      rw [problemsWithin]
      cases hno : g.isNode h .noNode with
      | true => exact .inl ⟨⟨[], .here _, by simp, hno⟩, rfl⟩
      | false => exact .inr ⟨fun hs => by simp [Stumbles, hno] at hs, _, rfl⟩
    | _ =>
      refine .inr ⟨?_, _, rfl⟩
      rintro ⟨above, hw, -⟩
      cases hw

end Check

/-! ## Whole trees -/

/-- Where a check does not stumble, a valid tree is one in which everything fits. -/
theorem valid_iff_fits {v : Value} (hs : ¬ h.Stumbles g v) :
    h.Valid g v ↔ ∀ mid w, h.Descends v mid w → h.Fits g mid w := by
  constructor
  · refine fun hv mid w hw => ⟨?_, ?_⟩
    · rintro rfl
      refine hs ⟨mid, hw, fun m hm => ?_, hv.nodes hw (.inl rfl)⟩
      obtain ⟨near, far, hsplit⟩ := List.append_of_mem hm
      exact hv.nodes (hw.passed hsplit) (.inr ⟨m, rfl⟩)
    · rintro n rfl
      exact ⟨hv.nodes hw (.inr ⟨n, rfl⟩), fun loc hloc => hv.locations hw hloc⟩
  · refine fun hall => ⟨fun hw hfor => ?_, fun hw hloc => ((hall _ _ hw).2 _ rfl).2 _ hloc⟩
    rcases hfor with rfl | ⟨n, rfl⟩
    · exact absurd rfl (hall _ _ hw).1
    · exact ((hall _ _ hw).2 n rfl).1

/-- No location below a value has a negative coordinate. -/
def NaturalBelow (h : Heap) (v : Value) : Prop :=
  ∀ n loc, h.Below v (.node n) → h.location? n = some loc → loc.span.Natural

/-- What lies in the nearest span above lies in all: each span that was passed lies in the next one. -/
theorem Valid.contains_of_nearest {v : Value} (hv : h.Valid g v) (hnat : h.NaturalBelow v) :
    ∀ {above : List NodeId} {s : Span}, (∀ near m far, above = near ++ m :: far → h.Descends v far (.node m)) →
      s.Natural → (∀ t, h.nearestSpan above = some t → t.contains s = true) →
      ∀ m ∈ above, ∀ outer, h.location? m = some outer → outer.span.contains s = true
  | [], _, _, _, _, _, hm, _, _ => by cases hm
  | k :: far, s, hpassed, hs, hnear, m, hm, outer, houter => by
    have hk := hpassed [] k far rfl
    have hpassed' : ∀ near m far', far = near ++ m :: far' → h.Descends v far' (.node m) :=
      fun near m far' hsplit => hpassed (k :: near) m far' (by rw [hsplit]; rfl)
    rw [nearestSpan_cons] at hnear
    cases hloc : h.location? k with
    | none =>
      rw [hloc] at hnear
      rcases List.mem_cons.1 hm with rfl | hm
      · cases hloc.symm.trans houter
      · exact hv.contains_of_nearest hnat hpassed' hs hnear m hm outer houter
    | some loc =>
      rw [hloc] at hnear
      have hin : loc.span.contains s = true := hnear loc.span rfl
      rcases List.mem_cons.1 hm with rfl | hm
      · cases hloc.symm.trans houter
        exact hin
      · -- the location of the nearest node lies in the outer one, and the span in it
        have hk' := hnat k loc hk.isBelow hloc
        have hout := hv.contains_of_nearest hnat hpassed' hk' (hv.locations hk hloc).inside m hm outer houter
        obtain ⟨near, far', hsplit⟩ := List.append_of_mem hm
        have houter' := hnat m outer (hpassed' near m far' hsplit).isBelow houter
        rw [Span.contains_iff_encloses houter' hk'] at hout
        rw [Span.contains_iff_encloses hk' hs] at hin
        exact (Span.contains_iff_encloses houter' hs).2 (hout.trans hin)

/-- In a valid tree with natural coordinates, a location lies in that of every node passed on the way to it. -/
theorem Valid.contains {v : Value} (hv : h.Valid g v) (hnat : h.NaturalBelow v) {above : List NodeId} {n m : NodeId}
    {loc outer : Location} (hn : h.Descends v above (.node n)) (hloc : h.location? n = some loc) (hm : m ∈ above)
    (houter : h.location? m = some outer) : outer.span.contains loc.span = true :=
  hv.contains_of_nearest hnat (fun _ _ _ => hn.passed) (hnat n loc hn.isBelow hloc) (hv.locations hn hloc).inside m hm
    outer houter

/-- The place for a root. -/
def rootPlace (root : Option NodeId) : Value := (root.map Value.node).getD .noNode

/-- The check of an acyclic tree stops just if it comes to a missing node that the grammar takes for a node. Otherwise it
gives a list of problems, which is empty just if the tree is valid. If it is, and no coordinate is negative, every
location lies in that of every located node above it, however many nodes without one there are in between. -/
theorem validate_exact (g : Grammar) (root : Option NodeId) (ha : h.Acyclic (rootPlace root)) :
    (h.validate g root = .error .missing ↔ h.Stumbles g (rootPlace root)) ∧
    (¬ h.Stumbles g (rootPlace root) → (∃ ps, h.validate g root = .ok ps) ∧
      (h.validate g root = .ok [] ↔ h.Valid g (rootPlace root))) ∧
    (h.validate g root = .ok [] → h.NaturalBelow (rootPlace root) → ∀ above n loc,
      h.Descends (rootPlace root) above (.node n) → h.location? n = some loc →
      ∀ m ∈ above, ∀ outer, h.location? m = some outer → outer.span.contains loc.span = true) := by
  have hshallow : h.Shallow (h.extent + 1) (rootPlace root) := ha.shallow (Nat.lt_succ_self _)
  have hnil : h.validate g root = .ok [] ↔ ∀ mid w, h.Descends (rootPlace root) mid w → h.Fits g mid w := by
    have := problemsWithin_eq_nil_iff (g := g) [] "$" hshallow
    simp only [List.append_nil] at this
    exact this
  have hvalid (hs : ¬ h.Stumbles g (rootPlace root)) : h.validate g root = .ok [] ↔ h.Valid g (rootPlace root) :=
    hnil.trans (valid_iff_fits hs).symm
  have hstop : StopsJustIf .missing (h.Stumbles g (rootPlace root)) (h.validate g root) :=
    problemsWithin_stop none "$" hshallow
  rcases hstop with ⟨hs, herr⟩ | ⟨hs, ps, hps⟩
  · refine ⟨iff_of_true herr hs, fun hn => absurd hs hn, fun hok => ?_⟩
    cases herr.symm.trans hok
  · refine ⟨iff_of_false (by simp [hps]) hs, fun _ => ⟨⟨ps, hps⟩, hvalid hs⟩, fun hok hnat above n loc hn hloc m hm => ?_⟩
    exact fun outer => ((hvalid hs).1 hok).contains hnat hn hloc hm

/-- A program on two lines, a wrapper without a location that has a hole and an identifier for its items. -/
def shelf : Heap where
  nodes := #[{ tag := "Identifier", location := some ⟨0⟩ },
    { tag := "Wrapper", fields := .ofEntries [("items", .list ⟨0⟩)] },
    { tag := "Program", fields := .ofEntries [("body", .node ⟨1⟩)], location := some ⟨1⟩ }]
  lists := #[[.null, .node ⟨0⟩]]
  locations := #[{ span := ⟨⟨1, 4, 0⟩, ⟨1, 5, 0⟩⟩ }, { span := ⟨⟨1, 0, 0⟩, ⟨2, 0, 0⟩⟩ }]

/-- How far up an object of the shelf is. -/
def shelfLevel : Value → Nat
  | .node n => 2 * n.index + 1
  | .list l => 2 * l.index + 2
  | _ => 0

theorem validate_exact_shelf : shelf.Acyclic (.node ⟨2⟩) ∧ shelf.NaturalBelow (.node ⟨2⟩) ∧
    shelf.Valid .standard (.node ⟨2⟩) ∧ (shelf.location ⟨1⟩).span.contains (shelf.location ⟨0⟩).span = true := by
  have ha : shelf.Acyclic (.node ⟨2⟩) := acyclic_of_measure shelfLevel (by decide) (by decide) _
  have hnat : shelf.NaturalBelow (.node ⟨2⟩) := by
    intro n loc _ hloc
    have hall : ∀ x ∈ shelf.locations.toList, x.span.Natural := by decide
    obtain ⟨l, -, rfl⟩ := Option.map_eq_some_iff.1 hloc
    rw [location, Array.getD_eq_getD_getElem?]
    cases hl : shelf.locations[l.index]? with
    | none => decide
    | some x => exact hall x (Array.mem_toList_iff.2 (Array.mem_of_getElem? hl))
  have hs : ¬ shelf.Stumbles .standard (.node ⟨2⟩) := fun hs => by simp [Stumbles, Grammar.standard] at hs
  have hok : shelf.validate .standard (some ⟨2⟩) = .ok [] := by decide +kernel
  obtain ⟨-, hvalid, hcontains⟩ := validate_exact .standard (some ⟨2⟩) ha
  refine ⟨ha, hnat, (hvalid hs).2.1 hok, ?_⟩
  have hway : shelf.Descends (.node ⟨2⟩) [⟨1⟩, ⟨2⟩] (.node ⟨0⟩) :=
    .field (e := ("body", .node ⟨1⟩)) (by decide)
      (.field (e := ("items", .list ⟨0⟩)) (by decide) (.item (v := .node ⟨0⟩) (by decide) (.here _)))
  exact hcontains hok hnat _ _ _ hway rfl ⟨2⟩ (by simp) _ rfl

/-- A node with a field that has no node. -/
def hollow : Heap where
  nodes := #[{ tag := "P", fields := .ofEntries [("x", .noNode)] }]

/-- A tree may be valid for a grammar that takes everything for a node, and its check stops all the same. -/
theorem validate_stops_hollow : hollow.Acyclic (rootPlace (some ⟨0⟩)) ∧
    hollow.Valid (Grammar.everything []) (rootPlace (some ⟨0⟩)) ∧
    hollow.validate (Grammar.everything []) (some ⟨0⟩) = .error .missing := by
  have hnone : ∀ n, hollow.location? n = none := by
    rintro ⟨_ | i⟩ <;> rfl
  refine ⟨acyclic_of_measure nodePlace (by decide) (by decide) _, ⟨fun _ _ => rfl, fun _ hloc => ?_⟩, by decide⟩
  rw [hnone] at hloc
  cases hloc

end Heap

end Bracketing.Tree
