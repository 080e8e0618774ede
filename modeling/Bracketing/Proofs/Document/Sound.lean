import Bracketing.Proofs.Document.Shown

/-!
# Loaded trees are sound up to their spans

The tree of a document is made of nodes with tags, has a token range for a location only if the range lies within the
tokens, and shares nothing. A check of it visits every node once and has nothing to say but about spans: that one starts
after its end, or that it is not within the span of the nearest located node above (`Location.spanDefects`).

* **Checks** (`exists_spanProblems`): what a check reports for a tree whose ranges lie within their tokens.
* **Documents** (`load_sound`): the same for the tree of a document, together with what the tree shows.
-/

namespace Bracketing.Tree

open Bracketing.Source

/-! ## Checks of spans -/

/-- What is wrong with the span of a location under the span of the nearest located node above it. -/
def Location.spanDefects (l : Location) (parent : Option Span) : List Defect :=
  (if 0 < l.span.start.compare l.span.stop then [.startAfterEnd l.span] else []) ++
  (match parent with
    | some s => if s.contains l.span then [] else [.escapes l.span s]
    | none => [])

/-- What is wrong with the span of the node at a place. -/
def Sighting.spanProblems (h : Heap) (s : Sighting) : List Problem :=
  match s.node with
  | some n =>
    (((h.location? n).map (·.spanDefects (h.nearestSpan s.above))).getD []).map (Problem.mk (h.tagged s.place n))
  | none => []

/-- The token range of the location, if it has one, lies within its tokens. -/
def Location.Ranged (l : Location) : Prop :=
  ∀ r, l.range = some r → 0 ≤ r.first ∧ r.first ≤ r.stop ∧ r.stop ≤ r.tokens.length

/-- A location with a proper range has no defect but in its span. -/
theorem Location.Ranged.defects_eq {l : Location} (hr : l.Ranged) (parent : Option Span) :
    l.defects parent = l.spanDefects parent := by
  unfold Location.defects Location.spanDefects
  cases hrange : l.range with
  | none => exact List.append_nil _
  | some r =>
    obtain ⟨hfirst, hle, hstop⟩ := hr r hrange
    have hno : ¬ (decide (r.first < 0) || decide ((r.tokens.length : Int) < r.stop) ||
        decide (r.stop < r.first)) = true := by
      simp only [Bool.or_eq_true, decide_eq_true_eq]
      omega
    exact (congrArg (_ ++ ·) (if_neg hno)).trans (List.append_nil _)

namespace Heap

variable {h : Heap} {g : Grammar}

/-- What is met on the way down is below. -/
theorem below_of_sees {v : Value} {above : List NodeId} {place : String} {s : Sighting}
    (hs : h.Sees g above place v s) : h.Below v ((s.node.map Value.node).getD .noNode) := by
  induction hs with
  | node => exact .refl
  | noNode => exact .refl
  | field _ he _ ih => exact .head (List.mem_map_of_mem he) ih
  | item hv _ ih => exact .head (List.mem_of_getElem? hv) ih

/-- A tree of tagged nodes and proper ranges that shares nothing: a check meets each of its nodes once, in preorder, and
reports what is wrong with their spans. -/
theorem exists_spanProblems {n : NodeId} (hp : h.Plain (.node n)) (hu : h.Unshared (.node n))
    (hno : ¬ h.Below (.node n) .noNode)
    (hr : ∀ m loc, h.Below (.node n) (.node m) → h.location? m = some loc → loc.Ranged) :
    ∃ (ss : List Sighting) (ns : List NodeId), h.validate .standard (some n) = .ok (ss.flatMap (·.spanProblems h)) ∧
      (∀ s, s ∈ ss ↔ h.Sees .standard [] "$" (.node n) s) ∧ ss.map (·.node) = ns.map some ∧
      h.preorder (.node n) = some ns ∧ ns.Nodup ∧ ∀ m, m ∈ ns ↔ h.Below (.node n) (.node m) := by
  have hnode : ∀ m, h.Below (.node n) (.node m) → Grammar.standard.isNode h (.node m) = true :=
    fun m hm => decide_eq_true (hp.tagged m hm)
  obtain ⟨ss, hvalid, hmem, hpre⟩ := hp.acyclic.validate_eq (g := .standard) fun hb => absurd hb hno
  obtain ⟨ns, hns, hbelow, hnodup⟩ := hp.acyclic.exists_preorder
  have hseen : ∀ s ∈ ss, ∃ m, s.node = some m ∧ h.Below (.node n) (.node m) := by
    intro s hs
    have hb := below_of_sees ((hmem s).1 hs)
    cases hm : s.node with
    | none =>
      rw [hm] at hb
      exact absurd hb hno
    | some m =>
      rw [hm] at hb
      exact ⟨m, rfl, hb⟩
  have hproblems : ∀ s ∈ ss, s.problems h .standard = s.spanProblems h := by
    intro s hs
    obtain ⟨m, hm, hb⟩ := hseen s hs
    simp only [Sighting.problems, Sighting.spanProblems, hm, hnode m hb, if_true]
    cases hloc : h.location? m with
    | none => rfl
    | some loc => simp [(hr m loc hb hloc).defects_eq]
  have hns' : ns = ss.filterMap (·.node) := by
    have := hpre hnode
    rw [hns] at this
    exact Option.some.inj this
  refine ⟨ss, ns, ?_, hmem, ?_, hns, hnodup hu, hbelow⟩
  · rw [hvalid, List.flatMap_congr hproblems]
  · rw [hns', List.map_filterMap_some_eq_filter_map_isSome]
    refine (List.filter_eq_self.2 fun o ho => ?_).symm
    obtain ⟨s, hs, rfl⟩ := List.mem_map.1 ho
    obtain ⟨m, hm, -⟩ := hseen s hs
    rw [hm]
    rfl

end Heap

end Bracketing.Tree

namespace Bracketing.Document

open Bracketing.Source Bracketing.Tree Bracketing.Tree.Heap

/-! ## Documents -/

section Below

variable {h : Heap} {d : Datum} {v w : Value}

theorem exists_find?_of_mem_fieldKeys {es : List (String × Datum)} {k : String} (hk : k ∈ fieldKeys es) :
    ∃ x, Datum.find? es k = some x := by
  rw [fieldKeys, List.mem_eraseDups, List.mem_filter] at hk
  obtain ⟨⟨_, x⟩, hm, rfl⟩ := List.mem_map.1 hk.1
  cases hx : Datum.find? es _ with
  | none => exact absurd hm (Datum.find?_eq_none_iff.1 hx x)
  | some y => exact ⟨y, rfl⟩

/-- Everything below a value that shows a datum shows one. -/
theorem Shows.of_below (hs : Shows h d v) (hw : h.Below v w) : ∃ x, Shows h x w := by
  induction hw with
  | refl => exact ⟨d, hs⟩
  | tail _ hw ih =>
    obtain ⟨x, hx⟩ := ih
    cases hx with
    | list hlen _ hi =>
      obtain ⟨i, hlt, rfl⟩ := List.mem_iff_getElem.1 hw
      exact ⟨_, hi i _ _ (List.getElem?_eq_getElem (hlen ▸ hlt)) (List.getElem?_eq_getElem hlt)⟩
    | @node es n _ hkeys hf =>
      obtain ⟨⟨k, v⟩, he, rfl⟩ := List.mem_map.1 hw
      have hk : k ∈ fieldKeys es := hkeys ▸ List.mem_map_of_mem he
      obtain ⟨x, hx⟩ := exists_find?_of_mem_fieldKeys hk
      exact ⟨x, hf k v x he hx⟩
    | _ => simp [Member, members] at hw

theorem Shows.ne_noNode (hs : Shows h d v) : ¬ h.Below v .noNode := by
  intro hb
  obtain ⟨x, hx⟩ := hs.of_below hb
  cases hx

/-- The names of the fields of a node are distinct, and none is a key that is set aside. -/
theorem Shows.node_keys {n : NodeId} (hs : Shows h d (.node n)) : (h.node n).tag ≠ "" ∧
    (h.node n).fields.keys.Nodup ∧ ∀ k ∈ (h.node n).fields.keys, k ∉ Load.skippedKeys := by
  cases hs with
  | @node es _ htag hkeys _ =>
    refine ⟨Load.tag?_ne htag, (h.node n).fields.distinct, fun k hk => ?_⟩
    rw [hkeys, fieldKeys, List.mem_eraseDups, List.mem_filter] at hk
    simpa using hk.2

end Below

/-- The tokens of a root are all there. -/
theorem rootTokens_eq {rs : Load.Readings} {es : List (String × Datum)} {ts : List (Option Token)}
    (ht : (rootTokens rs es).1 = some ts) : ∃ tokens : List Token, ts = tokens.map some := by
  unfold rootTokens at ht
  split at ht
  · rename_i d _
    cases d with
    | list items => exact ⟨_, (Option.some.inj ht).symm⟩
    | _ => cases ht
  · cases ht

/-- How a document has given a tree: it is a mapping that has been read as a node without a defect, and its tokens, if
it has any, have been attached. -/
theorem exists_read_of_load {rs : Load.Readings} {h heap : Heap} {d : Datum} {n : NodeId}
    (hl : load rs h d = .ok (n, heap)) :
    ∃ (es : List (String × Datum)) (p : Load.Progress), d = .mapping es ∧
      Load.value rs "$" ⟨h, (rootTokens rs es).2⟩ d.settled = (.node n, p) ∧ p.faults = [] ∧
      ((rootTokens rs es).1 = none ∧ heap = p.heap ∨
        ∃ ts, (rootTokens rs es).1 = some ts ∧ heap = (p.heap.attach (.node n) ts).1) := by
  cases d with
  | mapping es =>
    rw [load_eq] at hl
    obtain ⟨v, p, hread⟩ : ∃ v p, Load.value rs "$" ⟨h, (rootTokens rs es).2⟩ (Datum.mapping es).settled = (v, p) :=
      ⟨_, _, rfl⟩
    rw [hread] at hl
    simp only [conclude] at hl
    split at hl
    · rename_i hf
      split at hl
      · rename_i ts ht
        cases hl
        exact ⟨es, p, rfl, hread, hf, .inr ⟨ts, ht, rfl⟩⟩
      · rename_i ht
        cases hl
        exact ⟨es, p, rfl, hread, hf, .inl ⟨ht, rfl⟩⟩
    · cases hl
    · cases hl
  | _ => cases hl

/-- The tree of a document is sown, up to its tokens. -/
theorem exists_of_load {rs : Load.Readings} {h heap : Heap} {d : Datum} {n : NodeId}
    (hl : load rs h d = .ok (n, heap)) :
    ∃ p : Load.Progress, Sown h.nodes.size p.heap d.settled (.node n) ∧
      (heap = p.heap ∨ ∃ tokens : List Token, heap = (p.heap.attach (.node n) (tokens.map some)).1) := by
  obtain ⟨es, p, rfl, hread, -, hheap⟩ := exists_read_of_load hl
  have hs := (Load.sown_value rs "$" ⟨h, (rootTokens rs es).2⟩ _ (Datum.distinct_settled (.mapping es))).2
  rw [hread] at hs
  rcases hheap with ⟨-, rfl⟩ | ⟨ts, ht, rfl⟩
  · exact ⟨p, hs, .inl rfl⟩
  · obtain ⟨tokens, rfl⟩ := rootTokens_eq ht
    exact ⟨p, hs, .inr ⟨tokens, rfl⟩⟩

/-- A node that has just been read has a location of the heap, without tokens. -/
theorem Sown.locatedAt {first : Nat} {h : Heap} {d : Datum} {v : Value} {m : NodeId} {loc : Location}
    (hs : Sown first h d v) (hm : h.Below v (.node m)) (hloc : h.location? m = some loc) :
    h.LocatedAt m loc ∧ loc.range = none := by
  obtain ⟨l, hl, rfl⟩ := Option.map_eq_some_iff.1 hloc
  obtain ⟨s, hat⟩ := hs.unranged m hm l hl
  have he : h.location l = { span := s } := by simp [location, Array.getD_eq_getD_getElem?, hat]
  rw [he]
  exact ⟨⟨l, hl, hat⟩, rfl⟩

/-- Attaching tokens to what has been read gives a location the tokens that its span covers. -/
theorem Sown.exists_covering {first : Nat} {h : Heap} {d : Datum} {n m : NodeId} {loc : Location} {tokens : List Token}
    (hs : Sown first h d (.node n)) (hm : h.Below (.node n) (.node m))
    (hloc : (h.attach (.node n) (tokens.map some)).1.location? m = some loc) :
    ∃ loc', h.LocatedAt m loc' ∧ loc = loc'.covering tokens := by
  obtain ⟨h', ns, hattach, ha, hns⟩ := hs.loaded.plain.acyclic.attached tokens
  rw [hattach] at hloc
  obtain ⟨l, hl, -⟩ := Option.map_eq_some_iff.1 hloc
  rw [ha.node_eq] at hl
  have hbefore : h.location? m = some (h.location l) := by rw [location?, hl]; rfl
  have hlocated := (hs.locatedAt hm hbefore).1
  have hafter := (ha.located m ((hns m).2 hm) _ hlocated).location?
  exact ⟨_, hlocated, Option.some.inj (hloc.symm.trans hafter)⟩

/-- Attaching tokens in any order to what has been read gives no range outside the tokens. -/
theorem Sown.ranged_attach {first : Nat} {h : Heap} {d : Datum} {n m : NodeId} {loc : Location} {tokens : List Token}
    (hs : Sown first h d (.node n)) (hm : h.Below (.node n) (.node m))
    (hloc : (h.attach (.node n) (tokens.map some)).1.location? m = some loc) : loc.Ranged := by
  obtain ⟨loc, -, rfl⟩ := hs.exists_covering hm hloc
  intro r hr
  obtain rfl := Option.some.inj hr
  exact rangeOf_bounds tokens _

/-- The tree of a document shows the document: its nodes have tags and fields that are named by the keys of the
document, in their order. No token range lies outside its tokens. A check meets every node once, in preorder, and reports
just what is wrong with spans: those that start after they end, and those that are not within the span of the nearest
located node above. -/
theorem load_sound {rs : Load.Readings} {h heap : Heap} {d : Datum} {n : NodeId} (hl : load rs h d = .ok (n, heap)) :
    Shows heap d (.node n) ∧
    (∀ m, heap.Below (.node n) (.node m) → (heap.node m).tag ≠ "" ∧ (heap.node m).fields.keys.Nodup ∧
      ∀ k ∈ (heap.node m).fields.keys, k ∉ Load.skippedKeys) ∧
    (∀ m loc r, heap.Below (.node n) (.node m) → heap.location? m = some loc → loc.range = some r →
      0 ≤ r.first ∧ r.first ≤ r.stop ∧ r.stop ≤ r.tokens.length) ∧
    ∃ (ss : List Sighting) (ns : List NodeId),
      heap.validate .standard (some n) = .ok (ss.flatMap (·.spanProblems heap)) ∧
      (∀ s, s ∈ ss ↔ heap.Sees .standard [] "$" (.node n) s) ∧ ss.map (·.node) = ns.map some ∧
      heap.preorder (.node n) = some ns ∧ ns.Nodup ∧ ∀ m, m ∈ ns ↔ heap.Below (.node n) (.node m) := by
  obtain ⟨p, hs, hheap⟩ := exists_of_load hl
  have hg : Grows p.heap heap := by
    rcases hheap with rfl | ⟨tokens, rfl⟩
    · exact .refl _
    · exact grows_attach _ _ _
  have hranged : ∀ m loc, heap.Below (.node n) (.node m) → heap.location? m = some loc → loc.Ranged := by
    intro m loc hm hloc
    rw [hs.loaded.below_iff hg] at hm
    rcases hheap with rfl | ⟨tokens, rfl⟩
    · intro r hr
      rw [(hs.locatedAt hm hloc).2] at hr
      cases hr
    · exact hs.ranged_attach hm hloc
  have hshows : Shows heap d (.node n) := (hs.shown.grow hg).of_settled
  refine ⟨hshows, fun m hm => ?_, fun m loc r hm hloc hr => hranged m loc hm hloc r hr, ?_⟩
  · obtain ⟨x, hx⟩ := hshows.of_below hm
    exact hx.node_keys
  · exact exists_spanProblems (hs.loaded.grow hg).plain (hs.unshared.grow hg hs.loaded) hshows.ne_noNode hranged

/-- A location on the first line. -/
def lineLocation (start stop : UInt64) : Datum := .mapping
  [("start", .mapping [("line", .unsigned 1), ("column", .unsigned start)]),
    ("end", .mapping [("line", .unsigned 1), ("column", .unsigned stop)])]

/-- The entries of a document with a key that is written twice, tokens out of order, and a location that ends before it
starts, outside the one above. -/
def tangledEntries : List (String × Datum) :=
  [("left", .str "x"), ("type", .str "Sum"), ("loc", lineLocation 0 5),
    ("left", .list [.null, .mapping [("type", .str "Id"), ("loc", lineLocation 7 6)]]),
    ("right", .mapping [("label", .unsigned 1)]),
    ("tokens", .list [.mapping [("loc", lineLocation 4 5)], .mapping [("loc", lineLocation 0 1)]])]

theorem load_sound_tangled : ∃ n heap, load .byKey {} (.mapping tangledEntries) = .ok (n, heap) ∧
    Shows heap (.mapping tangledEntries) (.node n) ∧ (heap.node n).tag = "Sum" ∧
    (heap.node n).fields.keys = ["left", "right"] ∧
    ∃ (ss : List Sighting) (ns : List NodeId),
      heap.validate .standard (some n) = .ok (ss.flatMap (·.spanProblems heap)) ∧
      ss.map (·.node) = ns.map some ∧ heap.preorder (.node n) = some ns ∧ ns.Nodup := by
  obtain ⟨heap, hload⟩ : ∃ heap, load .byKey {} (.mapping tangledEntries) = .ok (⟨1⟩, heap) := (load_of_node rfl).1 rfl
  obtain ⟨hshows, -, -, ss, ns, hvalid, -, hnodes, hpre, hnodup, -⟩ := load_sound hload
  refine ⟨⟨1⟩, heap, hload, hshows, ?_, ?_, ss, ns, hvalid, hnodes, hpre, hnodup⟩
  · cases hshows with
    | node htag _ _ => exact (Option.some.inj htag).symm
  · cases hshows with
    | node _ hkeys _ => exact hkeys

end Bracketing.Document
