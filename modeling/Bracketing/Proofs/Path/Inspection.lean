import Bracketing.Proofs.Document.Loaded
import Bracketing.Proofs.Path.Course
import Bracketing.Proofs.Path.Trail
import Bracketing.Report.Survey

/-!
# Walks and inspections agree

There are two ways through a tree. An inspection goes through the objects themselves; a walk moves a path through them,
asks a grammar what is a node, looks fields up by their names and passes over what it has met before. On a plain tree
both come to the same nodes in the same order, and leave out the same ones below a node that is not to be entered.

- `Course.notes`: the course of a walk over a plain value notes the nodes that an inspection lists. The induction is on
  the depth of the walk; nothing on the stack is met again, for all of it lies strictly above the tip (`Fresh`).
- `walk_agrees_inspect`: so it is for every walk, and for every document that gives a tree.
-/

namespace Bracketing

open Bracketing.Tree Bracketing.Tree.Heap Stack

variable {σ ε α β : Type} {h : Heap} {f : NodeId → Bool}

/-- The answer goes on below the node if the node passes the test, and asks to skip what is below otherwise. -/
def Heeds (f : NodeId → Bool) (n : NodeId) (o : Outcome ε β) : Prop :=
  if f n then ∃ b, o = .done b else ∃ e, o = .failed e ∧ e.skips = true

/-- The answer heeds the test, wherever the tip of the stack is a node. -/
def HeedsAt (h : Heap) (f : NodeId → Bool) (st : List Value) (o : Outcome ε β) : Prop :=
  ∀ n, st.head? = some (.node n) → (h.node n).tag ≠ "" → Heeds f n o

/-- The runs are made at these nodes, in this order. -/
def RunsAt (runs : List (Run ε β)) (ns : List NodeId) : Prop :=
  runs.map (·.stack.head?) = ns.map fun n => some (.node n)

theorem RunsAt.append {runs more : List (Run ε β)} {ns ms : List NodeId} (hr : RunsAt runs ns) (hm : RunsAt more ms) :
    RunsAt (runs ++ more) (ns ++ ms) := by
  simp only [RunsAt, List.map_append] at *
  rw [hr, hm]

theorem RunsAt.cons {r : Run ε β} {runs : List (Run ε β)} {n : NodeId} {ns : List NodeId}
    (hr : r.stack.head? = some (.node n)) (hm : RunsAt runs ns) : RunsAt (r :: runs) (n :: ns) := by
  simp only [RunsAt, List.map_cons] at *
  rw [hr, hm]

/-- A walk over the value is done and its runs are made at the nodes that an inspection lists. -/
def Notes (h : Heap) (f : NodeId → Bool) (depth : Nat) (v : Value) (out : Outcome ε Unit) (runs : List (Run ε β)) :
    Prop :=
  out = .done () ∧ ∃ ns, h.Lists f depth v ns ∧ RunsAt runs ns

/-- What holds of each value that is not passed over holds of all of them in turn. -/
theorem InTurn.notes {law : List Value → Outcome ε Unit → List (Run ε β) → Prop} {depth : Nat} {p : α → Bool}
    {place : α → List Value} {val : α → Value} : ∀ {as : List α} {out : Outcome ε Unit} {runs : List (Run ε β)},
    (∀ a ∈ as, p a = false → h.Lists f depth (val a) []) →
    (∀ a ∈ as, p a = true → ∀ out runs, law (place a) out runs → Notes h f depth (val a) out runs) →
    InTurn law ((as.filter p).map place) out runs →
    out = .done () ∧ ∃ ns, h.ListsAll f depth (as.map val) ns ∧ RunsAt runs ns
  | [], _, _, _, _, ht => by
    cases ht
    exact ⟨rfl, [], ListsAll.nil, rfl⟩
  | a :: as, out, runs, hpass, hlaw, ht => by
    have hpass' : ∀ b ∈ as, p b = false → h.Lists f depth (val b) [] := fun b hb => hpass b (List.mem_cons_of_mem a hb)
    have hlaw' := fun b hb => hlaw b (List.mem_cons_of_mem a hb)
    cases hp : p a with
    | false =>
      rw [List.filter_cons_of_neg (by simp [hp])] at ht
      obtain ⟨rfl, ns, hl, hr⟩ := InTurn.notes hpass' hlaw' ht
      exact ⟨rfl, [] ++ ns, ListsAll.cons (hpass a List.mem_cons_self hp) hl, hr⟩
    | true =>
      rw [List.filter_cons_of_pos hp, List.map_cons] at ht
      cases ht with
      | cons ha has =>
        obtain ⟨-, ns, hl, hr⟩ := hlaw a List.mem_cons_self hp _ _ ha
        obtain ⟨rfl, ms, hl', hr'⟩ := InTurn.notes hpass' hlaw' has
        exact ⟨rfl, ns ++ ms, ListsAll.cons hl hl', hr.append hr'⟩
      | ended ha ho => exact absurd (hlaw a List.mem_cons_self hp _ _ ha).1 ho

/-! ## Nothing is met again -/

/-- Everything on the stack lies strictly above its tip. -/
def Fresh (h : Heap) (v : Value) (rest : List Value) : Prop :=
  ∀ u ∈ (Stack.values (v :: rest)).tail, Relation.TransGen h.Member u v

theorem Fresh.push {v w : Value} {rest : List Value} (hf : Fresh h v rest) (hw : h.Member v w) (name : Value) :
    Fresh h w (name :: v :: rest) := by
  obtain ⟨earlier, hv⟩ := values_cons v rest
  intro u hu
  have hu' : u ∈ Stack.values (v :: rest) := hu
  rw [hv] at hu'
  rcases List.mem_cons.1 hu' with rfl | hu'
  · exact .single hw
  · refine (hf u ?_).tail hw
    rw [hv]
    exact hu'

/-- The tip of the stack has not been met before. -/
theorem Fresh.any_eq_false {v : Value} {rest earlier : List Value} (hf : Fresh h v rest) (ha : h.Acyclic v)
    (hv : Stack.values (v :: rest) = v :: earlier) (hs : ∀ u, h.same u v = true → u = v) :
    earlier.any (h.same · v) = false := by
  refine List.any_eq_false.2 fun u hu hsame => ha v .refl ?_
  have := hf u (by rwa [hv])
  rwa [hs u hsame] at this

theorem Fresh.enters_node {n : NodeId} {rest : List Value} (hf : Fresh h (.node n) rest) (ha : h.Acyclic (.node n))
    (ht : (h.node n).tag ≠ "") : enters .standard h (.node n :: rest) = true := by
  obtain ⟨earlier, hv⟩ := values_cons (.node n) rest
  have hs : ∀ u, h.same u (.node n) = true → u = .node n := fun u hu => by cases u <;> simp_all [Heap.same]
  simp [enters, hv, hf.any_eq_false ha hv hs, Grammar.standard, ht]

theorem Fresh.enters_list {l : ListId} {rest : List Value} (hf : Fresh h (.list l) rest) (ha : h.Acyclic (.list l)) :
    enters .standard h (.list l :: rest) = true := by
  obtain ⟨earlier, hv⟩ := values_cons (.list l) rest
  have hs : ∀ u, h.same u (.list l) = true → u = .list l := fun u hu => by cases u <;> simp_all [Heap.same]
  simp [enters, hv, hf.any_eq_false ha hv hs]

/-- The standard grammar enters nothing but nodes and lists. -/
theorem enters_standard {v : Value} {rest : List Value} (hn : ∀ n, v ≠ .node n) (hl : ∀ l, v ≠ .list l) :
    enters .standard h (v :: rest) = false := by
  obtain ⟨earlier, hv⟩ := values_cons v rest
  cases v with
  | node n => exact absurd rfl (hn n)
  | list l => exact absurd rfl (hl l)
  | _ => simp [enters, hv, Grammar.standard]

/-! ## The course of a walk over a plain value -/

theorem map_elementAt (h : Heap) (l : ListId) : (List.range (h.list l).length).map (elementAt h l) = h.list l := by
  refine List.ext_getElem (by simp) fun i hi hi' => ?_
  simp [elementAt, hi']

theorem lists_of_not_branches {v : Value} {depth : Nat} (hv : Value.branches v = false) :
    h.Lists f (depth + 1) v [] :=
  lists_other (by rintro n rfl; cases hv) (by rintro l rfl; cases hv)

/-- The answer at a node tells whether a walk goes on below it. -/
theorem AtNode.notes {n : NodeId} {rest : List Value} {depth : Nat} {o : Outcome ε β} {out : Outcome ε Unit}
    {runs : List (Run ε β)} {below : Outcome ε Unit → List (Run ε β) → Prop} (ho : Heeds f n o)
    (hb : ∀ out runs, below out runs →
      out = .done () ∧ ∃ ns, h.ListsAll f depth (h.members (.node n)) ns ∧ RunsAt runs ns)
    (ht : AtNode (.node n :: rest) below o out runs) : Notes h f (depth + 1) (.node n) out runs := by
  unfold Heeds at ho
  cases hf : f n with
  | true =>
    rw [hf, if_pos rfl] at ho
    obtain ⟨b, rfl⟩ := ho
    cases ht with
    | done hr =>
      obtain ⟨rfl, ns, hl, hr⟩ := hb _ _ hr
      exact ⟨rfl, n :: ns, lists_entered hf hl, .cons rfl hr⟩
    | ended hp => cases hp
  | false =>
    rw [hf, if_neg (by simp)] at ho
    obtain ⟨e, rfl, he⟩ := ho
    cases ht with
    | skipped => exact ⟨rfl, [n], lists_passed hf, rfl⟩
    | ended hp => simp [Outcome.passes, he] at hp

/-- The course of a walk over a plain value, with a visitor that heeds a test, notes the nodes that an inspection with
this test lists. -/
theorem Course.notes : ∀ {depth depth' : Nat} {v : Value} {rest : List Value} {out : Outcome ε Unit}
    {runs : List (Run ε β)}, h.Plain v → h.Shallow depth v → h.Shallow depth' v → Fresh h v rest →
    Course (HeedsAt h f) .standard h depth (v :: rest) out runs → Notes h f depth' v out runs
  | 0, _, _, _, _, _, _, hs, _, _, _ => hs.not_zero.elim
  | _ + 1, 0, _, _, _, _, _, _, hs, _, _ => hs.not_zero.elim
  | depth + 1, depth' + 1, v, rest, out, runs, hv, hs, hs', hf, hc => by
    have ih : ∀ {w name : Value}, h.Member v w → ∀ out runs,
        Course (HeedsAt h f) .standard h depth (w :: name :: v :: rest) out runs → Notes h f depth' w out runs :=
      fun hw out runs hr => Course.notes (hv.member hw) (hs.member hw) (hs'.member hw) (hf.push hw _) hr
    -- what is passed over is inspected at a depth that is left
    have hpass : ∀ w, h.Member v w → Value.branches w = false → h.Lists f depth' w [] := fun w hw hb => by
      cases depth' with
      | zero => exact (hs'.member hw).not_zero.elim
      | succ => exact lists_of_not_branches hb
    cases v with
    | node n =>
      have hfields := map_get_keys (hv.fields n .refl)
      have hmem : ∀ k ∈ (h.node n).fields.keys, h.Member (.node n) (h.get n k) := fun k hk => by
        rw [Member, ← hfields]
        exact List.mem_map_of_mem hk
      obtain ⟨o, ho, hc⟩ := (course_node (hf.enters_node hv.acyclic (hv.tagged n .refl)) rfl).1 hc
      refine AtNode.notes (ho n rfl (hv.tagged n .refl)) (fun out runs hr => ?_) hc
      rw [← hfields]
      exact InTurn.notes (fun k hk hb => hpass _ (hmem k hk) hb) (fun k hk _ => ih (hmem k hk)) hr
    | list l =>
      have hmem : ∀ i ∈ List.range (h.list l).length, h.Member (.list l) (elementAt h l i) := fun i hi => by
        refine Heap.member_of_mem ?_
        rw [← map_elementAt h l]
        exact List.mem_map_of_mem hi
      have hhole : ∀ i ∈ List.range (h.list l).length, decide (elementAt h l i ≠ .null) = false →
          h.Lists f depth' (elementAt h l i) [] := fun i hi hb => by
        have he : elementAt h l i = .null := by simpa using hb
        exact hpass _ (hmem i hi) (he ▸ rfl)
      obtain ⟨hout, ns, hl, hr⟩ :=
        InTurn.notes hhole (fun i hi _ => ih (hmem i hi)) ((course_list (hf.enters_list hv.acyclic)).1 hc)
      rw [map_elementAt] at hl
      exact ⟨hout, ns, lists_list hl, hr⟩
    | _ =>
      obtain ⟨rfl, rfl⟩ := (course_pass (enters_standard (by simp) (by simp))).1 hc
      exact ⟨rfl, [], lists_other (by simp) (by simp), rfl⟩

/-! ## Every walk -/

/-- A walk over a plain tree with a visitor that heeds a test runs it at the nodes of an inspection. -/
theorem exists_runsAt {c : Cursor σ} {I : σ → Prop} (hc : c.Lawful I) {v : Visit σ ε β} {s : σ} (hI : I s)
    (hk : Keeps c (fun t => I t ∧ c.heap t = c.heap s) v) {root : Value} (hs : (c.path s).stack = [root])
    (hg : (c.path s).grammar = .standard) (hp : (c.heap s).Plain root)
    (hv : ∀ t n, I t → c.heap t = c.heap s → (c.path t).grammar = .standard →
      (c.path t).node (c.heap t) = some n → Heeds f n (v t).1) :
    ∃ runs t nodes, c.walk (do let _ ← v) s = (.done (), t) ∧
      (c.beside (List (Run ε β))).walk (do let _ ← c.recorded v) (s, []) = (.done (), (t, runs)) ∧
      (c.heap s).preorderWhere f root = some nodes ∧ RunsAt runs nodes := by
  have ha : ∀ t, I t → c.heap t = c.heap s → (c.path t).grammar = (c.path s).grammar →
      HeedsAt (c.heap s) f (c.path t).stack (v t).1 := by
    intro t hIt hheap hgt n hn htag
    obtain ⟨rest, hst⟩ := List.head?_eq_some_iff.1 hn
    refine hv t n hIt hheap (hgt.trans hg) (Path.node_of_tip hst ?_)
    rw [hgt, hg, hheap]
    simpa [Grammar.standard] using htag
  obtain ⟨runs, out, t, hw, hw', hcourse⟩ := exists_course hc hI hk (by simp [hs]) _ ha
  rw [hs, hg] at hcourse
  have hd : (c.heap s).Shallow ((c.heap s).extent + c.reserve + 1) root := hp.acyclic.shallow (by omega)
  have hd' : (c.heap s).Shallow ((c.heap s).extent + 1) root := hp.acyclic.shallow (Nat.lt_succ_self _)
  obtain ⟨rfl, nodes, hl, hr⟩ := hcourse.notes hp hd hd' (by simp [Fresh, Stack.values])
  exact ⟨runs, t, nodes, hw, hw', hl.preorderWhere_eq, hr⟩

/-- On a plain tree, a walk by the standard grammar whose visitor heeds a test at the nearest node is done, and runs the
visitor at the nodes that an inspection with this test visits, in the same order. A document that gives a tree gives a
plain one, so that a walk over it with a visitor that is always done has as many runs as the tree has nodes. -/
theorem walk_agrees_inspect {c : Cursor σ} {I : σ → Prop} (hc : c.Lawful I) {v : Visit σ ε β} {s : σ} (hI : I s)
    (hk : Keeps c (fun t => I t ∧ c.heap t = c.heap s) v) {root : Value} (hs : (c.path s).stack = [root])
    (hg : (c.path s).grammar = .standard) :
    (∀ f : NodeId → Bool, (c.heap s).Plain root →
      (∀ t n, I t → c.heap t = c.heap s → (c.path t).grammar = .standard → (c.path t).node (c.heap t) = some n →
        Heeds f n (v t).1) →
      ∃ runs t nodes, c.walk (do let _ ← v) s = (.done (), t) ∧
        (c.beside (List (Run ε β))).walk (do let _ ← c.recorded v) (s, []) = (.done (), (t, runs)) ∧
        (c.heap s).preorderWhere f root = some nodes ∧ RunsAt runs nodes) ∧
    ∀ rs start d n, Document.load rs start d = .ok (n, c.heap s) → root = .node n →
      (c.heap s).Plain root ∧
      ((∀ t, I t → c.heap t = c.heap s → ∃ b, (v t).1 = .done b) →
        ∃ runs t, c.walk (do let _ ← v) s = (.done (), t) ∧
          (c.beside (List (Run ε β))).walk (do let _ ← c.recorded v) (s, []) = (.done (), (t, runs)) ∧
          (c.heap s).count root = some runs.length) := by
  refine ⟨fun f => exists_runsAt hc hI hk hs hg, fun rs start d n hload hroot => ?_⟩
  have hp : (c.heap s).Plain root := hroot ▸ Document.plain_of_load hload
  refine ⟨hp, fun hdone => ?_⟩
  have hv : ∀ t n, I t → c.heap t = c.heap s → (c.path t).grammar = .standard →
      (c.path t).node (c.heap t) = some n → Heeds (fun _ => true) n (v t).1 := fun t n hIt hheap _ _ => by
    simpa [Heeds] using hdone t hIt hheap
  obtain ⟨runs, t, nodes, hw, hw', hl, hr⟩ := exists_runsAt hc hI hk hs hg hp hv
  refine ⟨runs, t, hw, hw', ?_⟩
  have hlen := congrArg List.length hr
  simp only [List.length_map] at hlen
  rw [Heap.count_eq_length, Heap.preorder, hl, hlen]
  rfl

/-- A document of one node in another. -/
def nestedDatum : Document.Datum := .mapping [("type", .str "A"), ("b", .mapping [("type", .str "B")])]

/-- The objects of this document. -/
def nestedDocument : Heap where
  nodes := #[{ tag := "B" }, { tag := "A", fields := .ofEntries [("b", .node ⟨0⟩)] }]

theorem load_nestedDatum : Document.load .byKey {} nestedDatum = .ok (⟨1⟩, nestedDocument) := rfl

/-- A walk over the document from its root. -/
def nestedTour : Tour Unit where
  heap := nestedDocument
  path := .new (.node ⟨1⟩)

/-- A visitor that asks, in its own words, to skip what is below the nodes with a certain tag. -/
def skippingVisit (tag : String) : Visit (Tour Unit) Empty Unit := fun t =>
  match t.path.node t.heap with
  | some n => if (t.heap.node n).tag = tag then (.failed (.wrapped tag .skipChildren), t) else (.done (), t)
  | none => (.done (), t)

theorem keeps_skippingVisit (tag : String) (h : Heap) :
    Keeps Tour.cursor (fun t => True ∧ Tour.cursor.heap t = h) (skippingVisit tag) := by
  intro t ht
  unfold skippingVisit
  split
  · split <;> exact ⟨rfl, ht⟩
  · exact ⟨rfl, ht⟩

theorem walk_agrees_inspect_nested :
    (∃ runs t nodes, Tour.cursor.walk (do let _ ← skippingVisit "A") nestedTour = (.done (), t) ∧
      (Tour.cursor.beside (List (Run Empty Unit))).walk (do let _ ← Tour.cursor.recorded (skippingVisit "A"))
        (nestedTour, []) = (.done (), (t, runs)) ∧
      nestedDocument.preorderWhere (fun n => (nestedDocument.node n).tag ≠ "A") (.node ⟨1⟩) = some nodes ∧
      RunsAt runs nodes) ∧
    ∃ runs t, Tour.cursor.walk (do let _ ← (pure () : Visit (Tour Unit) Empty Unit)) nestedTour = (.done (), t) ∧
      (Tour.cursor.beside (List (Run Empty Unit))).walk (do let _ ← Tour.cursor.recorded (pure ()))
        (nestedTour, []) = (.done (), (t, runs)) ∧
      nestedDocument.count (.node ⟨1⟩) = some runs.length := by
  obtain ⟨hp, hcount⟩ := (walk_agrees_inspect (s := nestedTour) (ε := Empty) Tour.cursor_lawful trivial (keeps_pure ())
    rfl rfl).2 _ _ _ _ load_nestedDatum rfl
  refine ⟨?_, hcount fun _ _ _ => ⟨(), rfl⟩⟩
  refine (walk_agrees_inspect (s := nestedTour) Tour.cursor_lawful trivial
    (keeps_skippingVisit "A" nestedDocument) rfl rfl).1 (fun n => (nestedDocument.node n).tag ≠ "A") hp ?_
  intro t n _ hheap _ hn
  have hheap' : t.heap = nestedDocument := hheap
  have hn' : t.path.node t.heap = some n := hn
  unfold skippingVisit Heeds
  rw [hn', hheap']
  by_cases ht : (nestedDocument.node n).tag = "A"
  · simp [ht, Failure.skips]
  · simp [ht]

example : nestedDocument.preorderWhere (fun n => (nestedDocument.node n).tag ≠ "A") (.node ⟨1⟩) = some [⟨1⟩] := by
  decide

end Bracketing
