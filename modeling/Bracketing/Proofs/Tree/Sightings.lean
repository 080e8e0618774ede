import Bracketing.Proofs.Tree.Plain
import Bracketing.Tree.Validate

/-!
# What a check of a tree reports

A sighting is a place for a node, as it is met on the way down from a value: with the nodes passed on the way and the
text of the place (`Sees`). What is wrong at a sighting depends on nothing else (`Sighting.problems`).

* **One value** (`exists_surveyed`): the problems of an acyclic value are those of its sightings, in preorder.
* **A tree** (`Acyclic.validate_eq`): the same for the whole check.
-/

namespace Bracketing.Tree

open Bracketing.Source

/-- A place for a node: the node that it holds, if any, the nodes above it, the nearest first, and its text. -/
structure Sighting where
  node : Option NodeId
  above : List NodeId
  place : String

namespace Heap

variable {h : Heap} {g : Grammar}

/-- The text of the place of a node, which gives its tag. -/
def tagged (h : Heap) (place : String) (n : NodeId) : String := place ++ "(" ++ (h.node n).tag ++ ")"

/-- The place for a node is met on the way down from a value; nothing is met below what is no node of the grammar. -/
inductive Sees (h : Heap) (g : Grammar) : List NodeId → String → Value → Sighting → Prop
  | node {above : List NodeId} {place : String} {n : NodeId} : Sees h g above place (.node n) ⟨some n, above, place⟩
  | noNode {above : List NodeId} {place : String} : Sees h g above place .noNode ⟨none, above, place⟩
  | field {above : List NodeId} {place : String} {n : NodeId} {e : String × Value} {s : Sighting}
    (hn : g.isNode h (.node n) = true) (he : e ∈ (h.node n).fields.entries)
    (hs : Sees h g (n :: above) (h.tagged place n ++ "." ++ e.1) e.2 s) : Sees h g above place (.node n) s
  | item {above : List NodeId} {place : String} {l : ListId} {i : Nat} {v : Value} {s : Sighting}
    (hv : (h.list l)[i]? = some v) (hs : Sees h g above (place ++ "[" ++ toString i ++ "]") v s) :
    Sees h g above place (.list l) s

/-- The fields of a node with their places. -/
def fieldsAt (h : Heap) (place : String) (n : NodeId) : List (Value × String) :=
  (h.node n).fields.entries.map fun e => (e.2, h.tagged place n ++ "." ++ e.1)

/-- The items of a list with their places. -/
def itemsAt (h : Heap) (place : String) (l : ListId) : List (Value × String) :=
  (h.list l).zipIdx.map fun e => (e.1, place ++ "[" ++ toString e.2 ++ "]")

theorem map_fst_fieldsAt (place : String) (n : NodeId) : (h.fieldsAt place n).map Prod.fst = h.members (.node n) := by
  rw [fieldsAt, List.map_map]
  rfl

theorem map_fst_itemsAt (place : String) (l : ListId) : (h.itemsAt place l).map Prod.fst = h.members (.list l) := by
  rw [itemsAt, List.map_map]
  exact List.zipIdx_map_fst 0 (h.list l)

theorem member_of_mem_fieldsAt {p : Value × String} {place : String} {n : NodeId} (hp : p ∈ h.fieldsAt place n) :
    h.Member (.node n) p.1 := by
  rw [Member, ← map_fst_fieldsAt place n]
  exact List.mem_map_of_mem hp

theorem member_of_mem_itemsAt {p : Value × String} {place : String} {l : ListId} (hp : p ∈ h.itemsAt place l) :
    h.Member (.list l) p.1 := by
  rw [Member, ← map_fst_itemsAt place l]
  exact List.mem_map_of_mem hp

/-- The span of the first node that is located. -/
def nearestSpan (h : Heap) (above : List NodeId) : Option Span := above.findSome? fun n => (h.location? n).map (·.span)

theorem nearestSpan_cons (n : NodeId) (above : List NodeId) :
    h.nearestSpan (n :: above) = ((h.location? n).map (·.span)).or (h.nearestSpan above) := by
  rw [nearestSpan, List.findSome?_cons]
  cases h.location? n <;> rfl

end Heap

/-- What is wrong at a place for a node. -/
def Sighting.problems (h : Heap) (g : Grammar) (s : Sighting) : List Problem :=
  match s.node with
  | some n =>
    if g.isNode h (.node n) then
      (((h.location? n).map (·.defects (h.nearestSpan s.above))).getD []).map (Problem.mk (h.tagged s.place n))
    else [⟨s.place, .notNode⟩]
  | none => [⟨s.place, .notNode⟩]

/-! ## Surveys -/

namespace Heap

variable {h : Heap} {g : Grammar}

/-- The sightings are those below a value, in preorder, and give its problems. -/
structure Surveyed (h : Heap) (g : Grammar) (depth : Nat) (above : List NodeId) (place : String) (v : Value)
    (ss : List Sighting) : Prop where
  problems : h.problemsWithin g depth v (h.nearestSpan above) place = .ok (ss.flatMap (·.problems h g))
  mem : ∀ s, s ∈ ss ↔ h.Sees g above place v s
  lists : ∀ f : NodeId → Bool, (∀ n, h.Below v (.node n) → f n = g.isNode h (.node n)) →
    h.Lists f depth v (ss.filterMap (·.node))

/-- The sightings are those below values at places, one after another. -/
structure SurveyedAll (h : Heap) (g : Grammar) (depth : Nat) (above : List NodeId) (ps : List (Value × String))
    (ss : List Sighting) : Prop where
  problems : ∃ bs, ps.mapM (fun p => h.problemsWithin g depth p.1 (h.nearestSpan above) p.2) = .ok bs ∧
    bs.flatten = ss.flatMap (·.problems h g)
  mem : ∀ s, s ∈ ss ↔ ∃ p ∈ ps, h.Sees g above p.2 p.1 s
  lists : ∀ f : NodeId → Bool, (∀ p ∈ ps, ∀ n, h.Below p.1 (.node n) → f n = g.isNode h (.node n)) →
    h.ListsAll f depth (ps.map Prod.fst) (ss.filterMap (·.node))

section Survey

variable {depth : Nat} {above : List NodeId} {place : String} {ss ss' : List Sighting}

theorem SurveyedAll.nil : h.SurveyedAll g depth above [] [] where
  problems := ⟨[], rfl, rfl⟩
  mem s := by simp
  lists f _ := .nil

theorem SurveyedAll.cons {p : Value × String} {ps : List (Value × String)}
    (hp : h.Surveyed g depth above p.2 p.1 ss) (hps : h.SurveyedAll g depth above ps ss') :
    h.SurveyedAll g depth above (p :: ps) (ss ++ ss') where
  problems := by
    obtain ⟨bs, hbs, hflat⟩ := hps.problems
    refine ⟨_ :: bs, ?_, by rw [List.flatten_cons, hflat, List.flatMap_append]⟩
    rw [List.mapM_cons, hp.problems, hbs]
    rfl
  mem s := by simp [hp.mem, hps.mem]
  lists f hf := by
    rw [List.filterMap_append]
    exact ListsAll.cons (hp.lists f (hf p List.mem_cons_self))
      (hps.lists f fun q hq => hf q (List.mem_cons_of_mem p hq))

theorem surveyed_node {n : NodeId} (hn : g.isNode h (.node n) = true)
    (hm : h.SurveyedAll g depth (n :: above) (h.fieldsAt place n) ss) :
    h.Surveyed g (depth + 1) above place (.node n) (⟨some n, above, place⟩ :: ss) where
  problems := by
    obtain ⟨bs, hbs, hflat⟩ := hm.problems
    rw [fieldsAt, List.mapM_map, nearestSpan_cons] at hbs
    simp only [Function.comp_def, tagged] at hbs
    rw [List.flatMap_cons, ← hflat]
    simp only [problemsWithin, hn, if_true, Sighting.problems, hbs]
    rfl
  mem s := by
    rw [List.mem_cons, hm.mem]
    constructor
    · rintro (rfl | ⟨p, hp, hs⟩)
      · exact .node
      · obtain ⟨e, he, rfl⟩ := List.mem_map.1 hp
        exact .field hn he hs
    · intro hs
      cases hs with
      | node => exact .inl rfl
      | field _ he hs => exact .inr ⟨_, List.mem_map_of_mem he, hs⟩
  lists f hf := by
    have hfields := hm.lists f fun p hp m hb => hf m (.head (member_of_mem_fieldsAt hp) hb)
    rw [map_fst_fieldsAt] at hfields
    exact lists_entered ((hf n .refl).trans hn) hfields

theorem surveyed_notNode {n : NodeId} (hn : g.isNode h (.node n) = false) :
    h.Surveyed g (depth + 1) above place (.node n) [⟨some n, above, place⟩] where
  problems := by simp [problemsWithin, Sighting.problems, hn]
  mem s := by
    rw [List.mem_singleton]
    constructor
    · rintro rfl
      exact .node
    · intro hs
      cases hs with
      | node => rfl
      | field hn' => simp [hn] at hn'
  lists f hf := lists_passed ((hf n .refl).trans hn)

theorem surveyed_list {l : ListId} (hm : h.SurveyedAll g depth above (h.itemsAt place l) ss) :
    h.Surveyed g (depth + 1) above place (.list l) ss where
  problems := by
    obtain ⟨bs, hbs, hflat⟩ := hm.problems
    rw [itemsAt, List.mapM_map] at hbs
    simp only [Function.comp_def] at hbs
    simp only [problemsWithin, hbs, ← hflat]
    rfl
  mem s := by
    rw [hm.mem]
    constructor
    · rintro ⟨p, hp, hs⟩
      obtain ⟨e, he, rfl⟩ := List.mem_map.1 hp
      exact .item (List.mem_zipIdx_iff_getElem?.1 he) hs
    · intro hs
      cases hs with
      | @item _ _ _ i v _ hv hs =>
        have he : (v, i) ∈ (h.list l).zipIdx := List.mem_zipIdx_iff_getElem?.2 hv
        exact ⟨_, List.mem_map_of_mem he, hs⟩
  lists f hf := by
    have hitems := hm.lists f fun p hp m hb => hf m (.head (member_of_mem_itemsAt hp) hb)
    rw [map_fst_itemsAt] at hitems
    exact lists_list hitems

theorem surveyed_noNode (hn : g.isNode h .noNode = false) :
    h.Surveyed g (depth + 1) above place .noNode [⟨none, above, place⟩] where
  problems := by simp [problemsWithin, Sighting.problems, hn]
  mem s := by
    rw [List.mem_singleton]
    constructor
    · rintro rfl
      exact .noNode
    · intro hs
      cases hs
      rfl
  lists f _ := lists_other (by simp) (by simp)

/-- Nothing is met below what holds no node. -/
theorem surveyed_flat {v : Value} (hn : ∀ n, v ≠ .node n) (hno : v ≠ .noNode) (hl : ∀ l, v ≠ .list l) :
    h.Surveyed g (depth + 1) above place v [] where
  problems := by
    cases v with
    | node n => exact absurd rfl (hn n)
    | noNode => exact absurd rfl hno
    | list l => exact absurd rfl (hl l)
    | _ => rfl
  mem s := by
    refine ⟨fun hs => (by cases hs), fun hs => ?_⟩
    cases hs with
    | node | field => exact absurd rfl (hn _)
    | noNode => exact absurd rfl hno
    | item => exact absurd rfl (hl _)
  lists f _ := lists_other hn hl

/-- The sightings of a shallow value, if the grammar takes no place without a node for one. -/
theorem exists_surveyed : ∀ {depth : Nat} {v : Value} (above : List NodeId) (place : String), h.Shallow depth v →
    (h.Below v .noNode → g.isNode h .noNode = false) → ∃ ss, h.Surveyed g depth above place v ss
  | 0, _, _, _, hv, _ => hv.not_zero.elim
  | depth + 1, v, above, place, hv, hno => by
    have hall : ∀ (above : List NodeId) (ps : List (Value × String)), (∀ p ∈ ps, h.Member v p.1) →
        ∃ ss, h.SurveyedAll g depth above ps ss := by
      intro above ps
      induction ps with
      | nil => exact fun _ => ⟨[], .nil⟩
      | cons p ps ih =>
        intro hps
        have hp := hps p List.mem_cons_self
        obtain ⟨ss, hss⟩ := exists_surveyed above p.2 (hv.member hp) fun hb => hno (.head hp hb)
        obtain ⟨ss', hss'⟩ := ih fun q hq => hps q (List.mem_cons_of_mem p hq)
        exact ⟨ss ++ ss', SurveyedAll.cons hss hss'⟩
    cases v with
    | node n =>
      cases hn : g.isNode h (.node n) with
      | true =>
        obtain ⟨ss, hss⟩ := hall (n :: above) (h.fieldsAt place n) fun _ => member_of_mem_fieldsAt
        exact ⟨_, surveyed_node hn hss⟩
      | false => exact ⟨_, surveyed_notNode hn⟩
    | list l =>
      obtain ⟨ss, hss⟩ := hall above (h.itemsAt place l) fun _ => member_of_mem_itemsAt
      exact ⟨_, surveyed_list hss⟩
    | noNode => exact ⟨_, surveyed_noNode (hno .refl)⟩
    | _ => exact ⟨_, surveyed_flat (by simp) (by simp) (by simp)⟩

end Survey

/-- The problems of an acyclic tree are those of its sightings; if all its nodes are nodes of the grammar, these are its
nodes in preorder. -/
theorem Acyclic.validate_eq {n : NodeId} (hv : h.Acyclic (.node n))
    (hno : h.Below (.node n) .noNode → g.isNode h .noNode = false) :
    ∃ ss : List Sighting, h.validate g (some n) = .ok (ss.flatMap (·.problems h g)) ∧
      (∀ s, s ∈ ss ↔ h.Sees g [] "$" (.node n) s) ∧
      ((∀ m, h.Below (.node n) (.node m) → g.isNode h (.node m) = true) →
        h.preorder (.node n) = some (ss.filterMap (·.node))) := by
  obtain ⟨ss, hss⟩ := exists_surveyed (g := g) [] "$" (hv.shallow (Nat.lt_succ_self _)) hno
  refine ⟨ss, hss.problems, hss.mem, fun hall => ?_⟩
  exact (hss.lists (fun _ => true) fun m hm => (hall m hm).symm).preorderWhere_eq

end Heap

end Bracketing.Tree
