import Bracketing.Proofs.Path.Record
import Bracketing.Script.Run

/-!
# How traversals end

A traversal runs its visitor at one stack after another. It ends when a run does not let it go on, with the outcome of
that run, or when there is nothing left to run. All four traversals obey this law (`accounted_call`, `accounted_each`,
`accounted_map`, `accounted_walkWithin`), whatever their visitor does to the objects, apart from the few failures that
are their own (`Operation.Fails`). A walk is among those that end: while a visitor keeps the numbers of nodes and lists
within bounds, the distinct objects on the way down bound its depth.

- `traversal_exit`: every traversal with a visitor that moves the path by traversals only leaves the path as it was, and
  ends with the outcome of the first run that does not let it go on.
-/

namespace Bracketing

open Bracketing.Tree Stack

variable {σ ε α β : Type} {c : Cursor σ} {I : σ → Prop} {skip : Bool} {own : Outcome ε Unit → Prop} {s : σ}

/-! ## The parts of a traversal -/

theorem accounted_recorded (v : Visit σ ε β) (s : σ) : Accounted false own s v (c.recorded v) := by
  refine (records_recorded v s).mono ?_
  rintro out runs rfl
  cases out with
  | done a => exact .passed (by simp [Outcome.passes]) (.inl rfl)
  | failed e => exact .single rfl
  | stopped x => exact .single rfl

theorem accounted_unlessSkipped (v : Visit σ ε β) (s : σ) :
    Accounted true own s (do let _ ← v : Visit σ ε Unit).unlessSkipped
      (do let _ ← c.recorded v : Visit (σ × List (Run ε β)) ε Unit).unlessSkipped := by
  refine (records_unlessSkipped v s).mono ?_
  rintro out runs ⟨rfl, rfl⟩
  cases (v s).1 with
  | done a => exact .passed (by simp [Outcome.passes]) (.inl rfl)
  | failed e =>
    by_cases he : e.skips
    · exact .passed (by simp [Outcome.passes, he]) (.inl (by simp [Outcome.heeded, he, Outcome.forget]))
    · have h : (Outcome.failed e : Outcome ε β).heeded = .failed e := by simp [Outcome.heeded, he]
      rw [h]
      exact .single (r := ⟨_, .failed e⟩) (by simp [Outcome.passes, he])
  | stopped x => exact .single (r := ⟨_, .stopped x⟩) rfl

theorem accounted_indices (l : ListId) :
    Accounted (β := β) skip own s (c.indices l) ((c.beside (List (Run ε β))).indices l) :=
  Records.state_bind fun _ => accounted_pure _

theorem accounted_atElement {v : Visit σ ε α} {w : Visit (σ × List (Run ε β)) ε α} {l : ListId} {i : Nat}
    (hv : elementAt (c.heap s) l i ≠ .null →
      Accounted skip own (c.setPath s ((c.path s).push (.index i) (elementAt (c.heap s) l i))) v w) :
    Accounted skip own s (c.atElement l v i) ((c.beside _).atElement l w i) :=
  Records.atElement (fun _ => .passed (by simp) (.inl rfl)) fun hn =>
    Accounted.bind (hv hn) fun a _ _ => accounted_pure (some a)

section Parts

variable {names : List Value} (hc : c.Lawful I)
include hc

theorem accounted_descend (hI : I s) (hmiss : (c.path s).stack = [] → own (.stopped .missing)) :
    Accounted (β := β) skip own s (c.descend names) ((c.beside (List (Run ε β))).descend names) := by
  refine (records_descend hc names s hI).mono fun out runs hl => ?_
  obtain ⟨rfl, ⟨v, rest, -, rfl⟩ | ⟨hs, rfl⟩⟩ := hl
  · exact .passed (by simp) (.inl rfl)
  · exact .passed (by simp) (.inr (hmiss hs))

/-! ## Calls and lists -/

theorem accounted_call (hI : I s) {v : Visit σ ε α} {w : Visit (σ × List (Run ε β)) ε α}
    (hv : ∀ t, Accounted skip own t v w) (hmiss : (c.path s).stack = [] → own (.stopped .missing)) :
    Accounted skip own s (c.call names v) ((c.beside _).call names w) :=
  Records.restoring ((accounted_descend hc hI hmiss).bind fun _ t _ => hv t)

section Lists

variable (hI : I s) (hmiss : (c.path s).stack = [] → own (.stopped .missing))
  (hlist : ∀ v rest name, (c.path s).stack = v :: rest → (∀ l, Path.reached (c.heap s) v names ≠ .list l) →
    own (.failed (.notList name (Path.reached (c.heap s) v names).typeName)))
include hI hmiss hlist

theorem accounted_descendList :
    Accounted (β := β) skip own s (c.descendList names) ((c.beside (List (Run ε β))).descendList names) := by
  refine Records.bind (records_descend hc names s hI) ?_ ?_ ?_
  · rintro w t runs - ⟨rfl, ⟨v, rest, hs, hw⟩ | ⟨-, hw⟩⟩
    · obtain rfl : w = Path.reached (c.heap s) v names := by simpa using hw
      have hl := hlist v rest
      generalize Path.reached (c.heap s) v names = w at hl
      cases w with
      | list l => exact accounted_pure l
      | _ => exact Records.state_bind fun _ => records_fail (.passed (by simp) (.inr (hl _ hs (by simp))))
    · cases hw
  · rintro e runs ⟨-, ⟨_, _, -, he⟩ | ⟨-, he⟩⟩ <;> cases he
  · rintro x runs ⟨rfl, ⟨_, _, -, hx⟩ | ⟨hs, hx⟩⟩
    · cases hx
    · cases hx
      exact .passed (by simp) (.inr (hmiss hs))

theorem accounted_each {v : Visit σ ε Unit} {w : Visit (σ × List (Run ε β)) ε Unit}
    (hv : ∀ t, Accounted skip own t v w) : Accounted skip own s (c.each names v) ((c.beside _).each names w) := by
  refine Records.restoring ((accounted_descendList hc hI hmiss hlist).bind fun l t _ => ?_)
  refine (accounted_indices l).bind fun is u _ => ?_
  refine Accounted.forEach (J := fun _ => True) trivial (fun i _ t _ => ?_) fun _ _ _ => trivial
  exact (accounted_atElement fun _ => hv _).bind fun _ _ _ => accounted_pure ()

theorem accounted_map {v : Visit σ ε α} {w : Visit (σ × List (Run ε β)) ε α}
    (hv : ∀ t, Accounted skip own t v w) : Accounted skip own s (c.map names v) ((c.beside _).map names w) := by
  refine Records.restoring ((accounted_descendList hc hI hmiss hlist).bind fun l t _ => ?_)
  exact (accounted_indices l).bind fun is u _ => Accounted.collect (fun i t => accounted_atElement fun _ => hv _) is u

end Lists

/-! ## Walks -/

/-- The walk may count on a bound, or is allowed to end for want of depth. -/
def Counts (own : Outcome ε Unit → Prop) (P : Prop) : Prop := own (.stopped .endless) ∨ P

variable {nodes lists : Nat} {v : Visit σ ε β} (hbound : ∀ t, I t → Counts own (Bounded nodes lists (c.heap t)))
include hbound

section Further

variable {depth : Nat} {below : Visit σ ε Unit} {below' : Visit (σ × List (Run ε β)) ε Unit}
  (hb : ∀ t, I t → (c.path t).stack ≠ [] → Counts own (Ample nodes lists depth (c.path t).stack) →
    Accounted true own t below below')
include hb

omit hbound in
/-- What the walk does one member further down, given what it does with less depth. -/
theorem accounted_below (hI : I s) {tip : Value} {rest : List Value} (hs : (c.path s).stack = tip :: rest)
    (ha : Counts own (Ample nodes lists (depth + 1) (tip :: rest))) (hi : Counts own (Heap.Inside nodes lists tip))
    (hnew : tip ∉ (Stack.values (tip :: rest)).tail) (name value : Value) :
    Accounted true own (c.setPath s ((c.path s).push name value)) below below' := by
  refine hb _ (hc.valid_setPath _ _ hI) ?_ ?_
  · simp [hc.path_setPath _ _ hI, Path.push]
  · rw [hc.path_setPath _ _ hI]
    simp only [Path.push, hs]
    rcases ha with ha | ha
    · exact .inl ha
    · exact hi.imp id fun hi => ha.push hi hnew name value

theorem accounted_atField (hI : I s) {n : NodeId} {rest : List Value} (hs : (c.path s).stack = .node n :: rest)
    (ha : Counts own (Ample nodes lists (depth + 1) (.node n :: rest)))
    (hnew : .node n ∉ (Stack.values (.node n :: rest)).tail) (key : String) :
    Accounted true own s (c.atField n below key) ((c.beside _).atField n below' key) := by
  refine Records.atField hc hI hs (fun _ => .passed (by simp) (.inl rfl)) fun hbr => ?_
  exact accounted_below hc hb hI hs ha ((hbound s hI).imp id fun h => h.inside (member_of_branches hbr)) hnew _ _

end Further

theorem accounted_walkWithin (hk : Keeps c I v) : ∀ (depth : Nat) (s : σ), I s → (c.path s).stack ≠ [] →
    Counts own (Ample nodes lists depth (c.path s).stack) →
    Accounted true own s (c.walkWithin (do let _ ← v) depth)
      ((c.beside (List (Run ε β))).walkWithin (do let _ ← c.recorded v) depth)
  | 0, s, _, _, ha => records_stop (.passed (by simp) (.inr (ha.resolve_right Ample.not_zero)))
  | depth + 1, s, hI, hne, ha => by
    have hunit : Keeps c I (do let _ ← v : Visit σ ε Unit) := hk.bind fun _ => keeps_pure ()
    have hbelow := hunit.walkWithin hc depth
    have ih := accounted_walkWithin hk depth
    obtain ⟨tip, rest, hs⟩ := List.exists_cons_of_ne_nil hne
    obtain ⟨earlier, hvals⟩ := values_cons tip rest
    rw [hs] at ha
    refine Records.walkWithin_succ hs (fun _ => .passed (by simp) (.inl rfl)) (fun he hn => ?_) ?_
    · refine (accounted_unlessSkipped v s).bind fun enter t ht => ?_
      have hkt := hunit.unlessSkipped s hI
      rw [ht] at hkt
      cases enter with
      | false => exact accounted_pure ()
      | true =>
        cases tip with
        | node n =>
          have hnew : .node n ∉ (Stack.values (.node n :: rest)).tail := by
            rw [hvals]
            exact not_mem_of_enters hvals he (by simp)
          refine Records.state_bind fun log => ?_
          -- between two fields the path is the walk's own again
          refine Accounted.forEach (J := fun u => c.path u = c.path s ∧ I u) hkt (fun f hf u hu => ?_) fun f u hu => ?_
          · obtain ⟨key, -, rfl⟩ := List.mem_map.1 hf
            exact accounted_atField hc hbound ih hu.2 (by rw [hu.1, hs]) ha hnew key
          · obtain ⟨hp, hi⟩ := hbelow.atField hc f.1 f.2 u hu.2
            exact ⟨hp.trans hu.1, hi⟩
        | _ => exact accounted_pure ()
    · rintro l rfl he
      refine Records.each_nil hc hI hs (Accounted.forEach (J := fun u => c.path u = c.path s ∧ I u) ⟨rfl, hI⟩
        (fun i hi u hu => ?_) fun i u hu => ?_)
      · have hmem : (c.heap s).Member (.list l) _ := Heap.member_of_mem (List.getElem_mem (List.mem_range.1 hi))
        refine (accounted_atElement fun _ => ?_).bind fun _ _ _ => accounted_pure ()
        refine accounted_below hc ih hu.2 (by rw [hu.1, hs]) ha ((hbound s hI).imp id fun h => h.inside hmem) ?_ _ _
        rw [hvals]
        refine not_mem_of_enters hvals he ?_
        rintro _ ⟨⟩
        exact List.ne_nil_of_mem hmem
      · have hkeep : Keeps c I (do let _ ← c.atElement l (c.walkWithin (do let _ ← v) depth) i : Visit σ ε Unit) :=
          (hbelow.atElement hc l i).bind fun _ => keeps_pure ()
        obtain ⟨hp, hi'⟩ := hkeep u hu.2
        exact ⟨hp.trans hu.1, hi'⟩

end Parts

/-! ## All four traversals -/

/-- However the objects that a walk can make up for are divided into nodes and lists, some run of the visitor makes more. -/
def Overgrows (c : Cursor σ) (v : Visit σ ε β) (I : σ → Prop) (h : Heap) : Prop :=
  ∀ nodes lists, Bounded nodes lists h → nodes + lists ≤ h.extent + c.reserve →
    ∃ u, I u ∧ Bounded nodes lists (c.heap u) ∧ ¬ Bounded nodes lists (c.heap (v u).2)

/-- The failures of a traversal that are its own: the path has no tip, or a value to be listed is no list. A walk may
also go on for ever, if its visitor makes objects without end. -/
def Operation.Fails (c : Cursor σ) (v : Visit σ ε β) (I : σ → Prop) (s : σ) : Operation → Outcome ε Unit → Prop
  | .call _, out => (c.path s).stack = [] ∧ out = .stopped .missing
  | .each names, out | .map names, out =>
    ((c.path s).stack = [] ∧ out = .stopped .missing) ∨
      ∃ tip rest name, (c.path s).stack = tip :: rest ∧ (∀ l, Path.reached (c.heap s) tip names ≠ .list l) ∧
        out = .failed (.notList name (Path.reached (c.heap s) tip names).typeName)
  | .walk, out =>
    ((c.path s).stack = [] ∧ out = .stopped (.broken .noRoot)) ∨
      (out = .stopped .endless ∧ Overgrows c v I (c.heap s))

theorem accounted_walk (hc : c.Lawful I) {v : Visit σ ε β} (hk : Keeps c I v) (hI : I s) :
    Accounted true (Operation.walk.Fails c v I s) s (c.walk (do let _ ← v))
      ((c.beside (List (Run ε β))).walk (do let _ ← c.recorded v)) := by
  refine Records.walk ?_
  by_cases hs : (c.path s).stack = []
  · refine Accounted.congr (walkWithin_empty hs) (fun log => walkWithin_empty (c := c.beside _) (s := (s, log)) hs)
      (records_stop ?_)
    exact .passed (by simp) (.inr (.inl ⟨hs, rfl⟩))
  by_cases hg : Overgrows c v I (c.heap s)
  · have hown : Operation.walk.Fails c v I s (.stopped .endless) := .inr ⟨rfl, hg⟩
    have hbound : ∀ t, I t → Counts (Operation.walk.Fails c v I s) (Bounded 0 0 (c.heap t)) := fun _ _ => .inl hown
    exact accounted_walkWithin hc hbound hk _ s hI hs (.inl hown)
  · unfold Overgrows at hg
    push Not at hg
    obtain ⟨nodes, lists, hb, hle, hkeep⟩ := hg
    have hk' : Keeps c (fun u => I u ∧ Bounded nodes lists (c.heap u)) v := fun u hu =>
      ⟨(hk u hu.1).1, (hk u hu.1).2, hkeep u hu.1 hu.2⟩
    refine accounted_walkWithin (hc.and_heap _) (fun t ht => .inr ht.2) hk' _ s ⟨hI, hb⟩ hs (.inr (Ample.of_lt ?_ _))
    omega

theorem accounted_run (hc : c.Lawful I) {v : Visit σ ε β} (hk : Keeps c I v) (hI : I s) (op : Operation) :
    Accounted (decide (op = .walk)) (op.Fails c v I s) s (op.run c v)
      (op.run (c.beside (List (Run ε β))) (c.recorded v)) := by
  have hunit : ∀ own (t : σ), Accounted false own t (do let _ ← v : Visit σ ε Unit)
      (do let _ ← c.recorded v : Visit (σ × List (Run ε β)) ε Unit) := fun _ t =>
    (accounted_recorded v t).bind fun _ _ _ => accounted_pure ()
  cases op with
  | call names =>
    exact (accounted_call hc hI (accounted_recorded v) fun hs => ⟨hs, rfl⟩).bind fun b _ _ => accounted_pure [some b]
  | each names =>
    refine (accounted_each hc hI (fun hs => .inl ⟨hs, rfl⟩) ?_ (hunit _)).bind fun _ _ _ => accounted_pure []
    exact fun tip rest name hs hl => .inr ⟨tip, rest, name, hs, hl, rfl⟩
  | map names =>
    refine accounted_map hc hI (fun hs => .inl ⟨hs, rfl⟩) ?_ (accounted_recorded v)
    exact fun tip rest name hs hl => .inr ⟨tip, rest, name, hs, hl, rfl⟩
  | walk => exact (accounted_walk hc hk hI).bind fun _ _ _ => accounted_pure []

/-- Every traversal leaves the path as it was, however its visitor ends, and recording the runs of the visitor shows how
it ended itself: with the outcome of the last run if that does not let it go on, and otherwise done or with a failure
of its own. -/
theorem traversal_exit (hc : c.Lawful I) (op : Operation) (visitor : Program I ε β) (s : σ) (hI : I s) :
    ∃ out t runs, op.run c (visitor.run c) s = (out, t) ∧ c.path t = c.path s ∧
      op.run (c.beside (List (Run ε β))) (c.recorded (visitor.run c)) (s, []) = (out, (t, runs)) ∧
      Accounts (decide (op = .walk)) (op.Fails c (visitor.run c) I s) runs out.forget := by
  have hk := visitor.keeps hc
  obtain ⟨runs, hw, hr⟩ := accounted_run hc hk hI op []
  exact ⟨_, _, runs, rfl, (hk.run hc op s hI).1, hw, hr⟩

/-- A session with one path, at a node that holds itself in a list with a hole. -/
def loopSession : Script.Session where
  shop := { heap := {
    nodes := #[{ tag := "BlockStatement", fields := Record.ofEntries [("body", .list ⟨0⟩)] }]
    lists := #[[.null, .node ⟨0⟩]] } }
  paths := #[.new (.node ⟨0⟩)]

/-- A visitor that recovers from a stop further down and from the lack of a list, and then asks to skip children. -/
def restlessVisitor : Program (fun s : Script.Session => 0 < s.paths.size) Script.ScriptError Unit :=
  .move .walk (.stop (.raised "below")) fun _ =>
    .move (.each [.str "type"]) (.give ()) fun _ => .fail (.wrapped "block" .skipChildren)

theorem traversal_exit_restless : 0 < loopSession.paths.size ∧
    ∃ out t runs, Operation.walk.run (Script.Session.cursor 0) (restlessVisitor.run (Script.Session.cursor 0))
        loopSession = (out, t) ∧
      (Script.Session.cursor 0).path t = (Script.Session.cursor 0).path loopSession ∧
      Operation.walk.run ((Script.Session.cursor 0).beside (List (Run Script.ScriptError Unit)))
        ((Script.Session.cursor 0).recorded (restlessVisitor.run (Script.Session.cursor 0))) (loopSession, []) =
        (out, (t, runs)) ∧
      Accounts (decide (Operation.walk = .walk))
        (Operation.walk.Fails (Script.Session.cursor 0) (restlessVisitor.run (Script.Session.cursor 0))
          (fun s => 0 < s.paths.size) loopSession) runs out.forget :=
  ⟨by decide, traversal_exit (Script.Session.cursor_lawful 0) .walk restlessVisitor loopSession (by decide)⟩

end Bracketing
