import Bracketing.Proofs.Path.Record

/-!
# The course of a walk

What a walk over objects that stay as they are can do, said without states: `Course` relates the stack that a walk starts
from to its outcome and its runs, given what the visitor may answer at each stack. It follows the depth of the walk, one
case for each thing that a walk can do at a value (`AtNode`, `InTurn`).

- `course_walkWithin`: a walk takes such a course;
- `exists_course`: so does every walk from a path that has a tip.

Whatever is to be known about the runs of walks then follows from `Course` alone.
-/

namespace Bracketing

open Bracketing.Tree Stack

variable {σ ε α β ρ : Type}

/-! ## One part after another -/

/-- Parts taken in turn, each by its law, up to one that is not done. -/
inductive InTurn (law : α → Outcome ε Unit → List ρ → Prop) : List α → Outcome ε Unit → List ρ → Prop
  | nil : InTurn law [] (.done ()) []
  | cons {a : α} {as : List α} {runs more : List ρ} {out : Outcome ε Unit} (ha : law a (.done ()) runs)
      (has : InTurn law as out more) : InTurn law (a :: as) out (runs ++ more)
  | ended {a : α} {as : List α} {runs : List ρ} {out : Outcome ε Unit} (ha : law a out runs) (ho : out ≠ .done ()) :
      InTurn law (a :: as) out runs

/-- The law of a part that is passed over unless a test holds. -/
def Unless (p : Bool) (law : Outcome ε Unit → List ρ → Prop) (out : Outcome ε Unit) (runs : List ρ) : Prop :=
  if p then law out runs else out = .done () ∧ runs = []

/-- Parts that are passed over may be left out. -/
theorem InTurn.filter_map {law : β → Outcome ε Unit → List ρ → Prop} {p : α → Bool} {f : α → β} {as : List α}
    {out : Outcome ε Unit} {runs : List ρ} (h : InTurn (fun a => Unless (p a) (law (f a))) as out runs) :
    InTurn law ((as.filter p).map f) out runs := by
  induction h with
  | nil => exact .nil
  | @cons a as runs more out ha _ ih =>
    unfold Unless at ha
    cases hp : p a with
    | true =>
      rw [List.filter_cons_of_pos hp]
      exact .cons (by simpa [hp] using ha) ih
    | false =>
      rw [List.filter_cons_of_neg (by simp [hp])]
      have hr : runs = [] := by simpa [hp] using ha
      rwa [hr, List.nil_append]
  | @ended a as runs out ha ho =>
    unfold Unless at ha
    cases hp : p a with
    | true =>
      rw [List.filter_cons_of_pos hp]
      exact .ended (by simpa [hp] using ha) ho
    | false =>
      rw [hp] at ha
      exact absurd ha.1 ho

/-- Visits one after another are parts taken in turn; between two of them the states have a property. -/
theorem records_forEach {J : σ → Prop} {f : α → Visit σ ε Unit} {g : α → Visit (σ × List ρ) ε Unit}
    (law : α → Outcome ε Unit → List ρ → Prop) : ∀ {as : List α} {t : σ}, J t →
      (∀ a ∈ as, ∀ u, J u → Records (law a) u (f a) (g a)) → (∀ a u, J u → J (f a u).2) →
      Records (InTurn law as) t (Visit.forEach f as) (Visit.forEach g as)
  | [], _, _, _, _ => records_pure .nil
  | a :: as, t, ht, hf, hJ => by
    refine Records.bind (hf a List.mem_cons_self t ht) (fun _ u runs hu hr => ?_) ?_ ?_
    · have hu' := hJ a t ht
      rw [hu] at hu'
      exact (records_forEach law hu' (fun b hb => hf b (List.mem_cons_of_mem a hb)) hJ).mono fun out more => .cons hr
    · exact fun e runs hr => .ended hr (by simp)
    · exact fun x runs hr => .ended hr (by simp)

/-! ## What a walk can do -/

/-- A walk at a node, given the answer of the visitor: it goes on below, passes over what is below, or ends. -/
inductive AtNode (st : List Value) (below : Outcome ε Unit → List (Run ε β) → Prop) :
    Outcome ε β → Outcome ε Unit → List (Run ε β) → Prop
  | done {b : β} {out : Outcome ε Unit} {runs : List (Run ε β)} (hb : below out runs) :
      AtNode st below (.done b) out (⟨st, .done b⟩ :: runs)
  | skipped {e : Failure ε} (he : e.skips = true) : AtNode st below (.failed e) (.done ()) [⟨st, .failed e⟩]
  | ended {o : Outcome ε β} (ho : o.passes true = false) : AtNode st below o o.forget [⟨st, o⟩]

/-- The outcomes and runs of a walk from a stack, at most `depth` values deep, with a visitor that answers at each stack
as `answers` allows. -/
def Course (answers : List Value → Outcome ε β → Prop) (g : Grammar) (h : Heap) :
    Nat → List Value → Outcome ε Unit → List (Run ε β) → Prop
  | 0, _, out, runs => out = .stopped .endless ∧ runs = []
  | depth + 1, st, out, runs =>
    if enters g h st then
      if endsInNode st then ∃ o, answers st o ∧ AtNode st (InTurn (Course answers g h depth) (children h st)) o out runs
      else InTurn (Course answers g h depth) (children h st) out runs
    else out = .done () ∧ runs = []

section Course

variable {answers : List Value → Outcome ε β → Prop} {g : Grammar} {h : Heap} {depth : Nat} {st : List Value}
  {out : Outcome ε Unit} {runs : List (Run ε β)}

theorem course_pass (he : enters g h st = false) :
    Course answers g h (depth + 1) st out runs ↔ out = .done () ∧ runs = [] := by
  simp [Course, he]

theorem course_node (he : enters g h st = true) (hn : endsInNode st = true) :
    Course answers g h (depth + 1) st out runs ↔
      ∃ o, answers st o ∧ AtNode st (InTurn (Course answers g h depth) (children h st)) o out runs := by
  simp [Course, he, hn]

theorem course_list {l : ListId} {rest : List Value} (he : enters g h (.list l :: rest) = true) :
    Course answers g h (depth + 1) (.list l :: rest) out runs ↔
      InTurn (Course answers g h depth) (children h (.list l :: rest)) out runs := by
  simp [Course, he, endsInNode]

end Course

/-! ## Walks take their course -/

/-- From valid states, the visit at a child of the stack obeys the law of that child. -/
def RecordsChildren (law : List Value → Outcome ε Unit → List ρ → Prop) (c : Cursor σ) (I : σ → Prop) (g : Grammar)
    (h : Heap) (st : List Value) (below : Visit σ ε Unit) (below' : Visit (σ × List ρ) ε Unit) : Prop :=
  ∀ t x, I t → (c.path t).grammar = g → (c.path t).stack = x → x ∈ children h st → Records (law x) t below below'

section Walk

variable {c : Cursor σ} {I : σ → Prop} {g : Grammar} {h : Heap} {s : σ} {st : List Value}
  {law : List Value → Outcome ε Unit → List ρ → Prop} (hc : c.Lawful I) (hheap : ∀ t, I t → c.heap t = h)
include hc

/-- What the walk does one member further down. -/
theorem records_below {below : Visit σ ε Unit} {below' : Visit (σ × List ρ) ε Unit}
    (hb : RecordsChildren law c I g h st below below') (hI : I s) (hg : (c.path s).grammar = g)
    (hs : (c.path s).stack = st) {name value : Value} (hx : value :: name :: st ∈ children h st) :
    Records (law (value :: name :: st)) (c.setPath s ((c.path s).push name value)) below below' := by
  refine hb _ _ (hc.valid_setPath _ _ hI) ?_ ?_ hx
  · rw [hc.path_setPath _ _ hI]
    exact hg
  · rw [hc.path_setPath _ _ hI]
    simp only [Path.push, hs]

include hheap

theorem records_atField {below : Visit σ ε Unit} {below' : Visit (σ × List ρ) ε Unit} {n : NodeId}
    {rest : List Value} (hb : RecordsChildren law c I g h (.node n :: rest) below below') (hI : I s)
    (hg : (c.path s).grammar = g) (hs : (c.path s).stack = .node n :: rest) {key : String}
    (hkey : key ∈ (h.node n).fields.keys) :
    Records (Unless (Value.branches (h.get n key)) (law (atField h (.node n :: rest) n key))) s
      (c.atField n below key) ((c.beside (List ρ)).atField n below' key) := by
  rw [← hheap s hI] at hkey hb ⊢
  refine Records.atField hc hI hs (fun hbr => ?_) fun hbr => ?_
  · rw [hbr]
    exact ⟨rfl, rfl⟩
  · rw [hbr]
    exact records_below hc hb hI hg hs (List.mem_map_of_mem (List.mem_filter.2 ⟨hkey, hbr⟩))

theorem records_atElement {below : Visit σ ε Unit} {below' : Visit (σ × List ρ) ε Unit} {l : ListId}
    {rest : List Value} (hb : RecordsChildren law c I g h (.list l :: rest) below below') (hI : I s)
    (hg : (c.path s).grammar = g) (hs : (c.path s).stack = .list l :: rest) {i : Nat}
    (hi : i ∈ List.range (h.list l).length) :
    Records (Unless (decide (elementAt h l i ≠ .null)) (law (atIndex h (.list l :: rest) l i))) s
      (do let _ ← c.atElement l below i) (do let _ ← (c.beside (List ρ)).atElement l below' i) := by
  have hh := hheap s hI
  have hunit : ∀ {L : Outcome ε Unit → List ρ → Prop}, Records (fun out runs => L out.forget runs) s
      (c.atElement l below i) ((c.beside (List ρ)).atElement l below' i) →
      Records L s (do let _ ← c.atElement l below i) (do let _ ← (c.beside (List ρ)).atElement l below' i) :=
    fun {L} hr => (Records.forget_bind L hr fun _ => ()).mono fun out runs ht => by rwa [Outcome.forget_unit] at ht
  refine hunit ?_
  rw [← hh] at hi hb ⊢
  refine Records.atElement (fun hn => ?_) fun hn => ?_
  · simp only [hn, ne_eq, not_true_eq_false, decide_false]
    exact ⟨rfl, rfl⟩
  · simp only [hn, ne_eq, not_false_eq_true, decide_true]
    have hx : atIndex (c.heap s) (.list l :: rest) l i ∈ children (c.heap s) (.list l :: rest) :=
      List.mem_map_of_mem (List.mem_filter.2 ⟨hi, by simpa using hn⟩)
    exact Records.forget_bind (Unless true (law _))
      ((records_below hc hb hI hg hs hx).mono fun out runs ht => by rwa [Outcome.forget_unit]) some

/-- The fields of a node are its children, in turn. -/
theorem records_fields {below : Visit σ ε Unit} {below' : Visit (σ × List ρ) ε Unit} {tip : Value}
    {rest : List Value} (hk : Keeps c I below) (hb : RecordsChildren law c I g h (tip :: rest) below below') (hI : I s)
    (hg : (c.path s).grammar = g) (hs : (c.path s).stack = tip :: rest) (hn : endsInNode (tip :: rest) = true) :
    Records (InTurn law (children h (tip :: rest))) s
      (do Visit.forEach (fun f => c.atField f.1 below f.2) (← c.fieldsOf tip))
      (do Visit.forEach (fun f => (c.beside _).atField f.1 below' f.2) (← (c.beside (List ρ)).fieldsOf tip)) := by
  cases tip with
  | node n =>
    refine Records.state_bind fun log => ?_
    show Records _ s (Visit.forEach _ (((c.heap s).node n).fields.keys.map (n, ·)))
      (Visit.forEach _ (((c.heap s).node n).fields.keys.map (n, ·)))
    rw [hheap s hI]
    refine (records_forEach (J := fun u => c.path u = c.path s ∧ I u)
      (fun f => Unless (Value.branches (h.get n f.2)) (law (atField h (.node n :: rest) n f.2)))
      ⟨rfl, hI⟩ (fun f hf u hu => ?_) fun f u hu => ?_).mono fun out runs ht => ?_
    · obtain ⟨key, hkey, rfl⟩ := List.mem_map.1 hf
      exact records_atField hc hheap hb hu.2 (by rw [hu.1, hg]) (by rw [hu.1, hs]) hkey
    · obtain ⟨hp, hi⟩ := hk.atField hc f.1 f.2 u hu.2
      exact ⟨hp.trans hu.1, hi⟩
    · have := ht.filter_map
      rwa [List.filter_map, List.map_map] at this
  | noNode => exact records_pure .nil
  | _ => cases hn

/-- The elements of a list are its children, in turn. -/
theorem records_elements {below : Visit σ ε Unit} {below' : Visit (σ × List ρ) ε Unit} {l : ListId}
    {rest : List Value} (hk : Keeps c I below) (hb : RecordsChildren law c I g h (.list l :: rest) below below')
    (hI : I s) (hg : (c.path s).grammar = g) (hs : (c.path s).stack = .list l :: rest) :
    Records (InTurn law (children h (.list l :: rest))) s (c.each [] below) ((c.beside (List ρ)).each [] below') := by
  refine Records.each_nil hc hI hs ?_
  rw [hheap s hI]
  refine (records_forEach (J := fun u => c.path u = c.path s ∧ I u) _ ⟨rfl, hI⟩ (fun i hi u hu => ?_)
    fun i u hu => ?_).mono fun out runs ht => ht.filter_map
  · exact records_atElement hc hheap hb hu.2 (by rw [hu.1, hg]) (by rw [hu.1, hs]) hi
  · have hkeep : Keeps c I (do let _ ← c.atElement l below i : Visit σ ε Unit) :=
      (hk.atElement hc l i).bind fun _ => keeps_pure ()
    obtain ⟨hp, hi⟩ := hkeep u hu.2
    exact ⟨hp.trans hu.1, hi⟩

/-- A node that is entered: its visit, and its fields unless the visit asks to skip them. -/
theorem records_enter {law : List Value → Outcome ε Unit → List (Run ε β) → Prop} {v : Visit σ ε β}
    {below : Visit σ ε Unit} {below' : Visit (σ × List (Run ε β)) ε Unit} {tip : Value} {rest : List Value}
    (hv : Keeps c I v) (hk : Keeps c I below) (hb : RecordsChildren law c I g h (tip :: rest) below below') (hI : I s)
    (hg : (c.path s).grammar = g) (hs : (c.path s).stack = tip :: rest) (hn : endsInNode (tip :: rest) = true) :
    Records (AtNode (tip :: rest) (InTurn law (children h (tip :: rest))) (v s).1) s
      (c.enter (do let _ ← v) below tip) ((c.beside _).enter (do let _ ← c.recorded v) below' tip) := by
  have hunit : Keeps c I (do let _ ← v : Visit σ ε Unit) := hv.bind fun _ => keeps_pure ()
  refine Records.bind (records_unlessSkipped v s) ?_ ?_ ?_ <;> rw [hs] <;> generalize hr : (v s).1 = o
  · rintro enter t runs ht ⟨rfl, ho⟩
    obtain ⟨hp, hIt⟩ := hunit.unlessSkipped s hI
    rw [ht] at hp hIt
    cases enter with
    | true =>
      obtain ⟨b, rfl⟩ := Outcome.eq_done_of_heeded ho.symm
      exact (records_fields hc hheap hk hb hIt (by rw [hp, hg]) (by rw [hp, hs]) hn).mono fun out more => .done
    | false =>
      obtain ⟨e, rfl, he⟩ := Outcome.eq_failed_of_heeded ho.symm
      exact records_pure (.skipped he)
  · rintro e runs ⟨rfl, ho⟩
    obtain ⟨hn, hf⟩ := Outcome.ends_of_heeded_failed ho.symm
    rw [← hf]
    exact .ended hn
  · rintro x runs ⟨rfl, ho⟩
    obtain ⟨hn, hf⟩ := Outcome.ends_of_heeded_stopped ho.symm
    rw [← hf]
    exact .ended hn

/-- A walk takes the course that its visitor allows. -/
theorem course_walkWithin {v : Visit σ ε β} {answers : List Value → Outcome ε β → Prop} (hk : Keeps c I v)
    (ha : ∀ t, I t → (c.path t).grammar = g → answers (c.path t).stack (v t).1) :
    ∀ (depth : Nat) (s : σ) (st : List Value), I s → (c.path s).grammar = g → (c.path s).stack = st → st ≠ [] →
      Records (Course answers g h depth st) s (c.walkWithin (do let _ ← v) depth)
        ((c.beside (List (Run ε β))).walkWithin (do let _ ← c.recorded v) depth)
  | 0, _, _, _, _, _, _ => records_stop ⟨rfl, rfl⟩
  | depth + 1, s, st, hI, hg, hs, hne => by
    have hunit : Keeps c I (do let _ ← v : Visit σ ε Unit) := hk.bind fun _ => keeps_pure ()
    have hbelow := hunit.walkWithin hc depth
    obtain ⟨tip, rest, rfl⟩ := List.exists_cons_of_ne_nil hne
    have hb : RecordsChildren (Course answers g h depth) c I g h (tip :: rest) (c.walkWithin (do let _ ← v) depth)
        ((c.beside (List (Run ε β))).walkWithin (do let _ ← c.recorded v) depth) := by
      intro t x hIt hgt hst hx
      obtain ⟨value, name, rfl⟩ := exists_of_mem_children hx
      exact course_walkWithin hk ha depth t _ hIt hgt hst (by simp)
    refine Records.walkWithin_succ hs ?_ ?_ ?_ <;> rw [hg, hheap s hI]
    · exact fun he => (course_pass he).2 ⟨rfl, rfl⟩
    · intro he hn
      exact (records_enter hc hheap hk hbelow hb hI hg hs hn).mono fun out runs hr =>
        (course_node he hn).2 ⟨_, hs ▸ ha s hI hg, hr⟩
    · rintro l rfl he
      exact (records_elements hc hheap hbelow hb hI hg hs).mono fun out runs => (course_list he).2

end Walk

/-- Every walk from a path with a tip, whose visitor leaves the path and the objects as they are, takes the course that
its visitor allows. -/
theorem exists_course {c : Cursor σ} {I : σ → Prop} (hc : c.Lawful I) {v : Visit σ ε β} {s : σ} (hI : I s)
    (hk : Keeps c (fun t => I t ∧ c.heap t = c.heap s) v) (hs : (c.path s).stack ≠ [])
    (answers : List Value → Outcome ε β → Prop)
    (ha : ∀ t, I t → c.heap t = c.heap s → (c.path t).grammar = (c.path s).grammar →
      answers (c.path t).stack (v t).1) :
    ∃ runs out t, c.walk (do let _ ← v) s = (out, t) ∧
      (c.beside (List (Run ε β))).walk (do let _ ← c.recorded v) (s, []) = (out, (t, runs)) ∧
      Course answers (c.path s).grammar (c.heap s) ((c.heap s).extent + c.reserve + 1) (c.path s).stack
        out runs := by
  have hr := Records.walk (course_walkWithin (hc.and_heap (· = c.heap s)) (fun t ht => ht.2) hk
    (fun t ht => ha t ht.1 ht.2) _ s _ ⟨hI, rfl⟩ rfl rfl hs)
  obtain ⟨runs, hw, ht⟩ := hr []
  rcases hrun : c.walk (do let _ ← v) s with ⟨out, t⟩
  rw [hrun] at hw ht
  exact ⟨runs, out, t, rfl, hw, ht⟩

end Bracketing
