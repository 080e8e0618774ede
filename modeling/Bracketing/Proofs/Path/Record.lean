import Bracketing.Proofs.Path.Step

/-!
# Recorded visits

To say which visits a traversal makes, its visitor is made to record them: `Cursor.recorded` notes every run of a
visitor, with the stack it was made at and its outcome, in a log beside the state. `Records` says that recording
changes nothing else, and that the runs added to the log obey a law.

A law of one step is combined with those of the next by `Records.bind`, and what a walk can do at one value is said once
(`Records.walkWithin_succ`), whatever the law. The first law is about outcomes alone
(`Accounts`): the runs that let a traversal go on come first, and a run that does not is the last and gives the
traversal its outcome.
-/

namespace Bracketing

open Bracketing.Tree Stack

variable {σ ε α β ρ : Type} {c : Cursor σ} {I : σ → Prop}

/-- A run of a visitor: the stack it was made at, and its outcome. -/
structure Run (ε α : Type) where
  stack : List Value
  outcome : Outcome ε α

/-- The traversal of a state that has something beside it. -/
def Cursor.beside (c : Cursor σ) (ρ : Type) : Cursor (σ × ρ) where
  heap s := c.heap s.1
  path s := c.path s.1
  setPath s p := (c.setPath s.1 p, s.2)
  reserve := c.reserve

/-- The visitor that notes each of its runs in a log. -/
def Cursor.recorded (c : Cursor σ) (v : Visit σ ε α) : Visit (σ × List (Run ε α)) ε α := fun s =>
  ((v s.1).1, ((v s.1).2, s.2 ++ [⟨(c.path s.1).stack, (v s.1).1⟩]))

/-- From the state, the second visit does what the first does, and the runs that it adds to the log obey the law. -/
def Records (law : Outcome ε α → List ρ → Prop) (s : σ) (v : Visit σ ε α) (w : Visit (σ × List ρ) ε α) : Prop :=
  ∀ log, ∃ runs, w (s, log) = ((v s).1, ((v s).2, log ++ runs)) ∧ law (v s).1 runs

section Steps

variable {law : Outcome ε β → List ρ → Prop} {s : σ}

theorem Records.mono {law law' : Outcome ε α → List ρ → Prop} {v : Visit σ ε α} {w : Visit (σ × List ρ) ε α}
    (hv : Records law s v w) (hl : ∀ out runs, law out runs → law' out runs) : Records law' s v w := by
  intro log
  obtain ⟨runs, hw, hr⟩ := hv log
  exact ⟨runs, hw, hl _ _ hr⟩

/-- Recording a visit is recording one that does the same from the state. -/
theorem Records.congr {law : Outcome ε α → List ρ → Prop} {v v' : Visit σ ε α} {w w' : Visit (σ × List ρ) ε α}
    (hv : v s = v' s) (hw : ∀ log, w (s, log) = w' (s, log)) (h : Records law s v' w') : Records law s v w := by
  intro log
  rw [hv, hw]
  exact h log

/-- One step after another. -/
theorem Records.bind {law₁ : Outcome ε α → List ρ → Prop} {v : Visit σ ε α} {w : Visit (σ × List ρ) ε α}
    {f : α → Visit σ ε β} {g : α → Visit (σ × List ρ) ε β} (hv : Records law₁ s v w)
    (hf : ∀ a t runs, v s = (.done a, t) → law₁ (.done a) runs →
      Records (fun out more => law out (runs ++ more)) t (f a) (g a))
    (hfail : ∀ e runs, law₁ (.failed e) runs → law (.failed e) runs)
    (hstop : ∀ x runs, law₁ (.stopped x) runs → law (.stopped x) runs) : Records law s (v >>= f) (w >>= g) := by
  intro log
  obtain ⟨runs, hw, hr⟩ := hv log
  show ∃ runs, w.andThen g (s, log) = ((v.andThen f s).1, ((v.andThen f s).2, log ++ runs)) ∧ law (v.andThen f s).1 runs
  unfold Visit.andThen
  rw [hw]
  rcases hvs : v s with ⟨out, t⟩
  rw [hvs] at hr
  cases out with
  | done a =>
    obtain ⟨more, hg, hm⟩ := hf a t runs hvs hr (log ++ runs)
    exact ⟨runs ++ more, by simpa using hg, hm⟩
  | failed e => exact ⟨runs, rfl, hfail e runs hr⟩
  | stopped x => exact ⟨runs, rfl, hstop x runs hr⟩

theorem records_pure {law : Outcome ε α → List ρ → Prop} {a : α} (hl : law (.done a) []) :
    Records law s (pure a) (pure a) :=
  fun log => ⟨[], by simp [pure, Visit.give], hl⟩

theorem records_stop {law : Outcome ε α → List ρ → Prop} {x : Stop} (hl : law (.stopped x) []) :
    Records law s (Visit.stop x) (Visit.stop x) :=
  fun log => ⟨[], by simp [Visit.stop], hl⟩

theorem records_fail {law : Outcome ε α → List ρ → Prop} {e : Failure ε} (hl : law (.failed e) []) :
    Records law s (Visit.fail e) (Visit.fail e) :=
  fun log => ⟨[], by simp [Visit.fail], hl⟩

/-- Looking at the state; the log is not seen in what is done next. -/
theorem Records.state_bind {f : σ → Visit σ ε β} {g : σ × List ρ → Visit (σ × List ρ) ε β}
    (hf : ∀ log, Records law s (f s) (g (s, log))) : Records law s (Visit.state >>= f) (Visit.state >>= g) :=
  fun log => hf log log

theorem Records.restoring {v : Visit σ ε β} {w : Visit (σ × List ρ) ε β} (hv : Records law s v w) :
    Records law s (c.restoring v) ((c.beside (List ρ)).restoring w) := by
  intro log
  obtain ⟨runs, hw, hr⟩ := hv log
  exact ⟨runs, by simp [Cursor.restoring, hw, Cursor.beside], hr⟩

theorem Records.push_bind {name value : Value} {f : Unit → Visit σ ε β} {g : Unit → Visit (σ × List ρ) ε β}
    (hf : Records law (c.setPath s ((c.path s).push name value)) (f ()) (g ())) :
    Records law s (c.push name value >>= f) ((c.beside (List ρ)).push name value >>= g) :=
  fun log => hf log

end Steps

/-! ## Going down -/

theorem beside_lawful (hc : c.Lawful I) : (c.beside ρ).Lawful fun s => I s.1 where
  path_setPath s p := hc.path_setPath s.1 p
  heap_setPath s p := hc.heap_setPath s.1 p
  setPath_path s := by simp [Cursor.beside, hc.setPath_path]
  setPath_setPath s p q := by simp [Cursor.beside, hc.setPath_setPath]
  valid_setPath s p := hc.valid_setPath s.1 p

/-- Going down makes no run. -/
theorem records_descend (hc : c.Lawful I) (names : List Value) (s : σ) (hI : I s) :
    Records (fun (out : Outcome ε Value) (runs : List ρ) => runs = [] ∧
        ((∃ v rest, (c.path s).stack = v :: rest ∧ out = .done (Path.reached (c.heap s) v names)) ∨
          ((c.path s).stack = [] ∧ out = .stopped .missing)))
      s (c.descend names) ((c.beside (List ρ)).descend names) := by
  intro log
  cases hs : (c.path s).stack with
  | nil =>
    have hs' : ((c.beside (List ρ)).path (s, log)).stack = [] := hs
    rw [descend_empty hs, descend_empty hs']
    exact ⟨[], by simp, rfl, .inr ⟨rfl, rfl⟩⟩
  | cons v rest =>
    have hs' : ((c.beside (List ρ)).path (s, log)).stack = v :: rest := hs
    rw [descend_eq hc hI hs, descend_eq (beside_lawful hc) hI hs']
    exact ⟨[], by simp [Cursor.beside], rfl, .inl ⟨v, rest, rfl, rfl⟩⟩

/-! ## Members and values of a walk -/

section Members

variable {law : Outcome ε Unit → List ρ → Prop} {s : σ}

theorem Records.atElement {law : Outcome ε (Option α) → List ρ → Prop} {v : Visit σ ε α} {w : Visit (σ × List ρ) ε α}
    {l : ListId} {i : Nat} (hnone : elementAt (c.heap s) l i = .null → law (.done none) [])
    (hv : elementAt (c.heap s) l i ≠ .null →
      Records law (c.setPath s ((c.path s).push (.index i) (elementAt (c.heap s) l i))) (do return some (← v))
        (do return some (← w))) :
    Records law s (c.atElement l v i) ((c.beside (List ρ)).atElement l w i) := by
  by_cases hn : elementAt (c.heap s) l i = .null
  · exact (records_pure (hnone hn)).congr (atElement_pass hn v) fun log =>
      atElement_pass (c := c.beside _) (s := (s, log)) hn w
  · exact Records.congr (atElement_eq hn v) (fun log => atElement_eq (c := c.beside _) (s := (s, log)) hn w)
      (Records.restoring (Records.push_bind (hv hn)))

/-- One value of a walk: it is passed over, or is a node, or is a list. -/
theorem Records.walkWithin_succ {v : Visit σ ε Unit} {w : Visit (σ × List ρ) ε Unit} {depth : Nat} {tip : Value}
    {rest : List Value} (hs : (c.path s).stack = tip :: rest)
    (hpass : enters (c.path s).grammar (c.heap s) (tip :: rest) = false → law (.done ()) [])
    (hnode : enters (c.path s).grammar (c.heap s) (tip :: rest) = true → endsInNode (tip :: rest) = true →
      Records law s (c.enter v (c.walkWithin v depth) tip)
        ((c.beside _).enter w ((c.beside _).walkWithin w depth) tip))
    (hlist : ∀ l, tip = .list l → enters (c.path s).grammar (c.heap s) (.list l :: rest) = true →
      Records law s (c.each [] (c.walkWithin v depth)) ((c.beside _).each [] ((c.beside _).walkWithin w depth))) :
    Records law s (c.walkWithin v (depth + 1)) ((c.beside (List ρ)).walkWithin w (depth + 1)) := by
  rw [← hs] at hpass hnode
  cases he : enters (c.path s).grammar (c.heap s) (c.path s).stack with
  | false =>
    exact (records_pure (hpass he)).congr (walkWithin_pass hs he) fun log =>
      walkWithin_pass (c := c.beside _) (s := (s, log)) hs he
  | true =>
    rcases endsInNode_or_list (hs ▸ he) with hn | ⟨l, rfl⟩
    · exact (hnode he (hs ▸ hn)).congr (walkWithin_node hs he hn) fun log =>
        walkWithin_node (c := c.beside _) (s := (s, log)) hs he hn
    · exact (hlist l rfl (hs ▸ he)).congr (walkWithin_list hs he) fun log =>
        walkWithin_list (c := c.beside _) (s := (s, log)) hs he

theorem Records.walk {v : Visit σ ε Unit} {w : Visit (σ × List ρ) ε Unit}
    (h : Records law s (c.walkWithin v ((c.heap s).extent + c.reserve + 1))
      ((c.beside _).walkWithin w ((c.heap s).extent + c.reserve + 1))) :
    Records law s (c.walk v) ((c.beside (List ρ)).walk w) :=
  h.congr (walk_eq v s) fun log => walk_eq (c := c.beside _) w (s, log)

variable (hc : c.Lawful I) (hI : I s)
include hc hI

theorem Records.atField {below : Visit σ ε Unit} {below' : Visit (σ × List ρ) ε Unit} {n : NodeId}
    {rest : List Value} {key : String} (hs : (c.path s).stack = .node n :: rest)
    (hpass : Value.branches ((c.heap s).get n key) = false → law (.done ()) [])
    (hb : Value.branches ((c.heap s).get n key) = true →
      Records law (c.setPath s ((c.path s).push (.str key) ((c.heap s).get n key))) below below') :
    Records law s (c.atField n below key) ((c.beside (List ρ)).atField n below' key) := by
  cases hbr : Value.branches ((c.heap s).get n key) with
  | false =>
    exact (records_pure (hpass hbr)).congr (atField_pass hbr _) fun log =>
      atField_pass (c := c.beside _) (s := (s, log)) hbr _
  | true =>
    have hw : ∀ log, (c.beside (List ρ)).atField n below' key (s, log) =
        (c.beside _).restoring (do (c.beside _).push (.str key) ((c.heap s).get n key); below') (s, log) := fun log =>
      (atField_eq (c := c.beside _) (s := (s, log)) hbr _).trans
        (call_one (s := (s, log)) (beside_lawful hc) hI hs _ _)
    exact Records.congr ((atField_eq hbr _).trans (call_one hc hI hs _ _)) hw
      (Records.restoring (Records.push_bind (hb hbr)))

theorem Records.each_nil {v : Visit σ ε Unit} {w : Visit (σ × List ρ) ε Unit} {l : ListId} {rest : List Value}
    (hs : (c.path s).stack = .list l :: rest)
    (h : Records law s
      (Visit.forEach (fun i => do let _ ← c.atElement l v i) (List.range ((c.heap s).list l).length))
      (Visit.forEach (fun i => do let _ ← (c.beside _).atElement l w i) (List.range ((c.heap s).list l).length))) :
    Records law s (c.each [] v) ((c.beside (List ρ)).each [] w) :=
  Records.congr (Bracketing.each_nil hc hI hs v)
    (fun log => Bracketing.each_nil (s := (s, log)) (beside_lawful hc) hI hs w) (Records.restoring h)

end Members

/-! ## Runs of a visitor -/

/-- A visitor whose runs are noted has one run, from the stack it starts at. -/
theorem records_recorded (v : Visit σ ε α) (s : σ) :
    Records (fun out runs => runs = [⟨(c.path s).stack, out⟩]) s v (c.recorded v) :=
  fun _ => ⟨_, rfl, rfl⟩

/-- What a walk makes of the outcome of a visit: whether to go on below, or the end. -/
def Outcome.heeded : Outcome ε α → Outcome ε Bool
  | .done _ => .done true
  | .failed e => if e.skips then .done false else .failed e
  | .stopped x => .stopped x

theorem unlessSkipped_eq (v : Visit σ ε α) (s : σ) :
    (do let _ ← v : Visit σ ε Unit).unlessSkipped s = ((v s).1.heeded, (v s).2) := by
  rcases hv : v s with ⟨out, t⟩
  cases out with
  | done a =>
    have hu : (do let _ ← v : Visit σ ε Unit) s = (.done (), t) := bind_done hv
    simp only [Visit.unlessSkipped, hu, Outcome.heeded]
  | failed e =>
    have hu : (do let _ ← v : Visit σ ε Unit) s = (.failed e, t) := bind_failed hv
    simp only [Visit.unlessSkipped, hu, Outcome.heeded]
    split <;> rfl
  | stopped x =>
    have hu : (do let _ ← v : Visit σ ε Unit) s = (.stopped x, t) := bind_stopped hv
    simp only [Visit.unlessSkipped, hu, Outcome.heeded]

theorem records_unlessSkipped (v : Visit σ ε α) (s : σ) :
    Records (fun out runs => runs = [⟨(c.path s).stack, (v s).1⟩] ∧ out = (v s).1.heeded) s
      (do let _ ← v : Visit σ ε Unit).unlessSkipped
      (do let _ ← c.recorded v : Visit (σ × List (Run ε α)) ε Unit).unlessSkipped := by
  intro log
  rw [unlessSkipped_eq, unlessSkipped_eq]
  exact ⟨_, rfl, rfl, rfl⟩

/-! ## What runs give a traversal its outcome -/

/-- The outcome without its result. -/
def Outcome.forget : Outcome ε α → Outcome ε Unit
  | .done _ => .done ()
  | .failed e => .failed e
  | .stopped x => .stopped x

theorem Outcome.forget_unit (o : Outcome ε Unit) : o.forget = o := by
  cases o <;> rfl

/-- A law of outcomes without their results holds whatever is made of the result. -/
theorem Records.forget_bind (law : Outcome ε Unit → List ρ → Prop) {s : σ} {v : Visit σ ε α}
    {w : Visit (σ × List ρ) ε α} (hv : Records (fun out runs => law out.forget runs) s v w) (f : α → β) :
    Records (fun out runs => law out.forget runs) s (do return f (← v)) (do return f (← w)) :=
  Records.bind hv (fun a t runs _ hr => records_pure (by simpa [Outcome.forget] using hr)) (fun _ _ h => h)
    fun _ _ h => h

/-- A traversal goes on after a run with this outcome; `skip` tells whether it heeds requests to skip children. -/
def Outcome.passes (skip : Bool) : Outcome ε α → Bool
  | .done _ => true
  | .failed e => skip && e.skips
  | .stopped _ => false

namespace Outcome

variable {o : Outcome ε α}

theorem eq_done_of_heeded (h : o.heeded = .done true) : ∃ a, o = .done a := by
  cases o with
  | done a => exact ⟨a, rfl⟩
  | failed e => by_cases he : e.skips <;> simp [heeded, he] at h
  | stopped x => cases h

theorem eq_failed_of_heeded (h : o.heeded = .done false) : ∃ e, o = .failed e ∧ e.skips = true := by
  cases o with
  | done a => cases h
  | failed e =>
    by_cases he : e.skips
    · exact ⟨e, rfl, he⟩
    · simp [heeded, he] at h
  | stopped x => cases h

theorem ends_of_heeded_failed {e : Failure ε} (h : o.heeded = .failed e) :
    o.passes true = false ∧ o.forget = .failed e := by
  cases o with
  | done a => cases h
  | failed e' => by_cases he : e'.skips <;> simp_all [heeded, passes, forget]
  | stopped x => cases h

theorem ends_of_heeded_stopped {x : Stop} (h : o.heeded = .stopped x) :
    o.passes true = false ∧ o.forget = .stopped x := by
  cases o with
  | done a => cases h
  | failed e => by_cases he : e.skips <;> simp [heeded, he] at h
  | stopped y => simp_all [heeded, passes, forget]

end Outcome

/-- The runs of a traversal and its outcome: all runs let it go on, and it is done or fails in a way of its own, or
only the last run does not, and its outcome is that of the traversal. -/
inductive Accounts (skip : Bool) (own : Outcome ε Unit → Prop) : List (Run ε β) → Outcome ε Unit → Prop
  | passed {runs : List (Run ε β)} {out : Outcome ε Unit} (hr : ∀ r ∈ runs, r.outcome.passes skip = true)
      (ho : out = .done () ∨ own out) : Accounts skip own runs out
  | ended {runs : List (Run ε β)} {r : Run ε β} (hr : ∀ x ∈ runs, x.outcome.passes skip = true)
      (hn : r.outcome.passes skip = false) : Accounts skip own (runs ++ [r]) r.outcome.forget

namespace Accounts

variable {skip : Bool} {own : Outcome ε Unit → Prop} {runs more : List (Run ε β)} {out : Outcome ε Unit}

/-- Runs that let a traversal go on may come before. -/
theorem prepend (hr : ∀ r ∈ runs, r.outcome.passes skip = true) (hm : Accounts skip own more out) :
    Accounts skip own (runs ++ more) out := by
  cases hm with
  | passed hm ho => exact .passed (fun r h => (List.mem_append.1 h).elim (hr r) (hm r)) ho
  | ended hm hn =>
    rw [← List.append_assoc]
    exact .ended (fun r h => (List.mem_append.1 h).elim (hr r) (hm r)) hn

theorem single {r : Run ε β} (hn : r.outcome.passes skip = false) : Accounts skip own [r] r.outcome.forget := by
  have h : Accounts skip own ([] ++ [r]) r.outcome.forget := .ended (by simp) hn
  exact h

/-- All runs of a traversal that is done let it go on. -/
theorem passes_of_done (h : Accounts skip own runs (.done ())) : ∀ r ∈ runs, r.outcome.passes skip = true := by
  generalize ho : Outcome.done () = out at h
  cases h with
  | passed hr _ => exact hr
  | @ended _ r _ hn => cases hr : r.outcome <;> simp_all [Outcome.forget, Outcome.passes]

end Accounts

/-- From the state, the second visit does what the first does, and its runs account for the outcome. -/
def Accounted (skip : Bool) (own : Outcome ε Unit → Prop) (s : σ) (v : Visit σ ε α)
    (w : Visit (σ × List (Run ε β)) ε α) : Prop :=
  Records (fun out runs => Accounts skip own runs out.forget) s v w

section Accounted

variable {γ : Type} {skip : Bool} {own : Outcome ε Unit → Prop} {s : σ}

theorem Accounted.bind {v : Visit σ ε α} {w : Visit (σ × List (Run ε γ)) ε α} {f : α → Visit σ ε β}
    {g : α → Visit (σ × List (Run ε γ)) ε β} (hv : Accounted skip own s v w)
    (hf : ∀ a t, v s = (.done a, t) → Accounted skip own t (f a) (g a)) :
    Accounted skip own s (v >>= f) (w >>= g) :=
  Records.bind hv (fun a t _ ht hr => (hf a t ht).mono fun _ _ hm => hm.prepend hr.passes_of_done)
    (fun _ _ h => h) (fun _ _ h => h)

theorem accounted_pure (a : α) : Accounted (β := β) skip own s (pure a) (pure a) :=
  records_pure (.passed (by simp) (.inl rfl))

theorem Accounted.congr {v v' : Visit σ ε α} {w w' : Visit (σ × List (Run ε β)) ε α} (hv : v s = v' s)
    (hw : ∀ log, w (s, log) = w' (s, log)) (h : Accounted skip own s v' w') : Accounted skip own s v w :=
  Records.congr hv hw h

theorem Accounted.forEach {J : σ → Prop} {f : α → Visit σ ε Unit} {g : α → Visit (σ × List (Run ε β)) ε Unit} :
    ∀ {as : List α} {t : σ}, J t → (∀ a ∈ as, ∀ u, J u → Accounted skip own u (f a) (g a)) →
      (∀ a u, J u → J (f a u).2) → Accounted skip own t (Visit.forEach f as) (Visit.forEach g as)
  | [], _, _, _, _ => accounted_pure ()
  | a :: as, t, ht, hf, hJ => by
    refine (hf a List.mem_cons_self t ht).bind fun _ u hu => ?_
    have hu' := hJ a t ht
    rw [hu] at hu'
    exact Accounted.forEach hu' (fun b hb => hf b (List.mem_cons_of_mem a hb)) hJ

theorem Accounted.collect {γ : Type} {f : α → Visit σ ε γ} {g : α → Visit (σ × List (Run ε β)) ε γ}
    (hf : ∀ a u, Accounted skip own u (f a) (g a)) :
    ∀ (as : List α) (t : σ), Accounted skip own t (Visit.collect f as) (Visit.collect g as)
  | [], _ => accounted_pure []
  | a :: as, t => (hf a t).bind fun b u _ => (Accounted.collect hf as u).bind fun bs _ _ => accounted_pure (b :: bs)

end Accounted

end Bracketing
