import Bracketing.Proofs.Path.Frames
import Bracketing.Proofs.Path.Record
import Bracketing.Report.Survey

/-!
# Where traversals start their visitor

A traversal starts its visitor in one state after another (`Operation.starts`). While it is open, the path of such a state
is the path that the traversal was called at with more frames (`Operation.Opens`): those of the names it was given, that
of an element, or those that a walk went down. This holds however the visitor changes the objects, as long as it leaves
the path as it found it.

- `starts_run`: the frames that each of the four traversals adds;
- `path_refines_frames`: every path that was made from a root and is open in any number of traversals answers every
  question as its frames do.
-/

namespace Bracketing

open Bracketing.Tree Stack

variable {σ ε α β : Type} {c : Cursor σ} {I : σ → Prop} {s : σ}

/-! ## Frames below a path -/

/-- The path with frames below its tip. -/
def Path.along (p : Path) (fs : List Path.Link) : Path := { p with stack := fs.foldl Link.push p.stack }

theorem Path.along_along (p : Path) (fs gs : List Path.Link) : (p.along fs).along gs = p.along (fs ++ gs) := by
  simp [Path.along]

theorem Path.push_eq_along (p : Path) (name value : Value) : p.push name value = p.along [⟨name, value⟩] := rfl

/-- The frames that names lead through from a value. -/
def Path.trail (h : Heap) : Value → List Value → List Path.Link
  | _, [] => []
  | v, name :: names => ⟨name, resolve h v name⟩ :: trail h (resolve h v name) names

theorem Path.descended_eq_along (h : Heap) : ∀ (names : List Value) (p : Path) (v : Value),
    Path.descended h p v names = p.along (Path.trail h v names)
  | [], _, _ => rfl
  | _ :: names, _, _ => Path.descended_eq_along h names _ _

/-! ## The states of visits -/

/-- The visitor that notes the state of each of its runs in a log. -/
def Visit.watched (v : Visit σ ε α) : Visit (σ × List σ) ε α := fun s =>
  ((v s.1).1, ((v s.1).2, s.2 ++ [s.1]))

/-- The states in which a traversal starts its visitor, in order. -/
def Operation.starts (c : Cursor σ) (op : Operation) (v : Visit σ ε β) (s : σ) : List σ :=
  (op.run (c.beside (List σ)) v.watched (s, [])).2.2

/-- From the state, the second visit does what the first does, and notes only states with a property. -/
def Starts (P : σ → Prop) (s : σ) (v : Visit σ ε α) (w : Visit (σ × List σ) ε α) : Prop :=
  Records (fun _ runs => ∀ t ∈ runs, P t) s v w

section Parts

variable {P Q : σ → Prop}

theorem Starts.mono {v : Visit σ ε α} {w : Visit (σ × List σ) ε α} (hv : Starts P s v w) (h : ∀ t, P t → Q t) :
    Starts Q s v w :=
  Records.mono hv fun _ _ hr t ht => h t (hr t ht)

theorem Starts.bind {v : Visit σ ε α} {w : Visit (σ × List σ) ε α} {f : α → Visit σ ε β}
    {g : α → Visit (σ × List σ) ε β} (hv : Starts P s v w)
    (hf : ∀ a t, v s = (.done a, t) → Starts P t (f a) (g a)) : Starts P s (v >>= f) (w >>= g) :=
  Records.bind hv (fun a t _ ht hr => Records.mono (hf a t ht) fun _ _ hm => List.forall_mem_append.2 ⟨hr, hm⟩)
    (fun _ _ h => h) (fun _ _ h => h)

theorem starts_pure (a : α) : Starts P s (pure a : Visit σ ε α) (pure a) := records_pure (by simp)

theorem starts_watched {v : Visit σ ε α} (hs : P s) : Starts P s v v.watched := by
  intro log
  exact ⟨[s], rfl, by simpa using hs⟩

/-- Visits one after another; between two of them the states have a property. -/
theorem Starts.forEach {J : σ → Prop} {f : α → Visit σ ε Unit} {g : α → Visit (σ × List σ) ε Unit}
    (hJ : ∀ a u, J u → J (f a u).2) : ∀ {as : List α} {t : σ}, J t → (∀ a ∈ as, ∀ u, J u → Starts P u (f a) (g a)) →
      Starts P t (Visit.forEach f as) (Visit.forEach g as)
  | [], _, _, _ => starts_pure ()
  | a :: as, t, ht, hf => (hf a List.mem_cons_self t ht).bind fun _ u hu => by
    have hu' := hJ a t ht
    rw [hu] at hu'
    exact Starts.forEach hJ hu' fun b hb => hf b (List.mem_cons_of_mem a hb)

theorem Starts.collect {J : σ → Prop} {f : α → Visit σ ε β} {g : α → Visit (σ × List σ) ε β}
    (hJ : ∀ a u, J u → J (f a u).2) (hf : ∀ a u, J u → Starts P u (f a) (g a)) :
    ∀ {as : List α} {t : σ}, J t → Starts P t (Visit.collect f as) (Visit.collect g as)
  | [], _, _ => starts_pure []
  | a :: as, t, ht => (hf a t ht).bind fun b u hu => by
    have hu' := hJ a t ht
    rw [hu] at hu'
    exact (Starts.collect hJ hf hu').bind fun bs _ _ => starts_pure (b :: bs)

end Parts

/-! ## Going down -/

/-- The state is valid, and its path is the given one. -/
def StandsAt (c : Cursor σ) (I : σ → Prop) (p : Path) (t : σ) : Prop := I t ∧ c.path t = p

section Moves

variable {P : σ → Prop} {names : List Value} (hc : c.Lawful I)
include hc

theorem standsAt_setPath (hI : I s) (p : Path) : StandsAt c I p (c.setPath s p) :=
  ⟨hc.valid_setPath _ _ hI, hc.path_setPath _ _ hI⟩

/-- After going down, the path has the frames of the names. -/
theorem standsAt_descend {tip : Value} {rest : List Value} (hI : I s) (hs : (c.path s).stack = tip :: rest) {w : Value}
    {t : σ} (ht : (c.descend names : Visit σ ε Value) s = (.done w, t)) :
    w = Path.reached (c.heap s) tip names ∧ StandsAt c I ((c.path s).along (Path.trail (c.heap s) tip names)) t := by
  rw [descend_eq hc hI hs] at ht
  cases ht
  rw [Path.descended_eq_along]
  exact ⟨rfl, standsAt_setPath hc hI _⟩

theorem starts_descend (hI : I s) : Starts P s (c.descend names : Visit σ ε Value) ((c.beside (List σ)).descend names) :=
  (records_descend hc names s hI).mono fun _ _ hr => by simp [hr.1]

/-- A call starts its visitor with the frames of its names. -/
theorem starts_call {tip : Value} {rest : List Value} (hI : I s) (hs : (c.path s).stack = tip :: rest)
    {v : Visit σ ε α} {w : Visit (σ × List σ) ε α}
    (hv : ∀ t, StandsAt c I ((c.path s).along (Path.trail (c.heap s) tip names)) t → Starts P t v w) :
    Starts P s (c.call names v) ((c.beside _).call names w) :=
  Records.restoring ((starts_descend hc hI).bind fun _ t ht => hv t (standsAt_descend hc hI hs ht).2)

theorem starts_atElement {p : Path} (hs : StandsAt c I p s) {v : Visit σ ε α} {w : Visit (σ × List σ) ε α}
    {l : ListId} {i : Nat} (hv : ∀ e t, e ≠ .null → StandsAt c I (p.along [⟨.index i, e⟩]) t → Starts P t v w) :
    Starts P s (c.atElement l v i) ((c.beside _).atElement l w i) := by
  refine Records.atElement (fun _ => by simp) fun hn => ?_
  rw [hs.2]
  exact (hv _ _ hn (standsAt_setPath hc hs.1 _)).bind fun a _ _ => starts_pure (some a)

/-- A list that names lead to is reached with the frames of the names; anything else is not gone on with. -/
theorem starts_descendList {tip : Value} {rest : List Value} (hI : I s) (hs : (c.path s).stack = tip :: rest)
    {f : ListId → Visit σ ε β} {g : ListId → Visit (σ × List σ) ε β}
    (hf : ∀ l t, Path.reached (c.heap s) tip names = .list l →
      StandsAt c I ((c.path s).along (Path.trail (c.heap s) tip names)) t → Starts P t (f l) (g l)) :
    Starts P s (c.descendList names >>= f) ((c.beside _).descendList names >>= g) := by
  have hd : Starts P s (c.descendList names : Visit σ ε ListId) ((c.beside (List σ)).descendList names) := by
    refine (starts_descend hc hI).bind fun w t _ => ?_
    cases w with
    | list l => exact starts_pure l
    | _ => exact Records.state_bind fun _ => records_fail (by simp)
  refine hd.bind fun l t ht => ?_
  -- the list is what going down came to
  obtain ⟨w, u, hu⟩ : ∃ w u, (c.descend names : Visit σ ε Value) s = (.done w, u) := ⟨_, _, descend_eq hc hI hs names⟩
  obtain ⟨hw, hu'⟩ := standsAt_descend hc hI hs hu
  rw [Cursor.descendList, bind_done hu] at ht
  cases w with
  | list m =>
    cases ht
    exact hf l t hw.symm hu'
  | _ => cases ht

omit hc in
theorem keeps_standsAt {p : Path} {v : Visit σ ε α} (hv : Keeps c I v) (hs : StandsAt c I p s) :
    StandsAt c I p (v s).2 :=
  ⟨(hv s hs.1).2, (hv s hs.1).1.trans hs.2⟩

section Lists

variable {tip : Value} {rest : List Value} (hI : I s) (hs : (c.path s).stack = tip :: rest)
include hI hs

/-- A traversal of elements starts its visitor with the frames of its names and of an element. -/
theorem starts_each {v : Visit σ ε Unit} {w : Visit (σ × List σ) ε Unit} (hk : Keeps c I v)
    (hv : ∀ l (i : Nat) e t, Path.reached (c.heap s) tip names = .list l → e ≠ .null →
      StandsAt c I ((c.path s).along (Path.trail (c.heap s) tip names ++ [⟨.index i, e⟩])) t → Starts P t v w) :
    Starts P s (c.each names v) ((c.beside _).each names w) := by
  refine Records.restoring (starts_descendList hc hI hs fun l t hl ht => ?_)
  refine Records.state_bind fun log => ?_
  refine Starts.forEach (fun i u hu => ?_) ht fun i _ u hu => ?_
  · have hkeep : Keeps c I (do let _ ← c.atElement l v i : Visit σ ε Unit) :=
      (hk.atElement hc l i).bind fun _ => keeps_pure ()
    exact keeps_standsAt hkeep hu
  · refine (starts_atElement hc hu fun e t he ht => hv l i e t hl he ?_).bind fun _ _ _ => starts_pure ()
    rwa [Path.along_along] at ht

theorem starts_map {v : Visit σ ε α} {w : Visit (σ × List σ) ε α} (hk : Keeps c I v)
    (hv : ∀ l (i : Nat) e t, Path.reached (c.heap s) tip names = .list l → e ≠ .null →
      StandsAt c I ((c.path s).along (Path.trail (c.heap s) tip names ++ [⟨.index i, e⟩])) t → Starts P t v w) :
    Starts P s (c.map names v) ((c.beside _).map names w) := by
  refine Records.restoring (starts_descendList hc hI hs fun l t hl ht => ?_)
  refine Records.state_bind fun log => ?_
  refine Starts.collect (fun i u hu => keeps_standsAt (hk.atElement hc l i) hu) (fun i u hu => ?_) ht
  refine starts_atElement hc hu fun e t he ht => hv l i e t hl he ?_
  rwa [Path.along_along] at ht

end Lists

/-! ## Walks -/

omit hc in
theorem starts_unlessSkipped (v : Visit σ ε β) (hs : P s) :
    Starts P s (do let _ ← v : Visit σ ε Unit).unlessSkipped
      (do let _ ← v.watched : Visit (σ × List σ) ε Unit).unlessSkipped := by
  intro log
  rw [unlessSkipped_eq, unlessSkipped_eq]
  exact ⟨[s], rfl, by simpa using hs⟩

/-- Frames that a walk goes down: their names are those of fields and elements. -/
def OfMembers (fs : List Path.Link) : Prop := ∀ f ∈ fs, (∃ key, f.name = .str key) ∨ ∃ i : Nat, f.name = .index i

omit hc in
/-- What is further down from a member is further down. -/
theorem OfMembers.member {p : Path} {name value : Value} (hname : (∃ key, name = .str key) ∨ ∃ i : Nat, name = .index i)
    {t : σ} (ht : ∃ fs, OfMembers fs ∧ StandsAt c I ((p.along [⟨name, value⟩]).along fs) t) :
    ∃ fs, OfMembers fs ∧ StandsAt c I (p.along fs) t := by
  obtain ⟨fs, hw, ht⟩ := ht
  exact ⟨⟨name, value⟩ :: fs, List.forall_mem_cons.2 ⟨hname, hw⟩, by rwa [Path.along_along] at ht⟩

/-- A walk starts its visitor with frames that it went down. -/
theorem starts_walkWithin {v : Visit σ ε β} (hk : Keeps c I v) : ∀ (depth : Nat) (s : σ), I s → (c.path s).stack ≠ [] →
    Starts (fun t => ∃ fs, OfMembers fs ∧ StandsAt c I ((c.path s).along fs) t) s (c.walkWithin (do let _ ← v) depth)
      ((c.beside (List σ)).walkWithin (do let _ ← v.watched) depth)
  | 0, _, _, _ => records_stop (by simp)
  | depth + 1, s, hI, hne => by
    have hunit : Keeps c I (do let _ ← v : Visit σ ε Unit) := hk.bind fun _ => keeps_pure ()
    have hbelow := hunit.walkWithin hc depth
    have ih := starts_walkWithin hk depth
    obtain ⟨tip, rest, hs⟩ := List.exists_cons_of_ne_nil hne
    refine Records.walkWithin_succ hs (fun _ => by simp) (fun _ _ => ?_) ?_
    · have hhere : StandsAt c I ((c.path s).along []) s := ⟨hI, rfl⟩
      refine (starts_unlessSkipped v ⟨[], by simp [OfMembers], hhere⟩).bind fun enter t ht => ?_
      have ht' := keeps_standsAt hunit.unlessSkipped hhere
      rw [ht] at ht'
      cases enter with
      | false => exact starts_pure ()
      | true =>
        cases tip with
        | node n =>
          refine Records.state_bind fun log => ?_
          -- between two fields the path is the walk's own again
          refine Starts.forEach (fun f u hu => keeps_standsAt (hbelow.atField hc f.1 f.2) hu) ht' fun f hf u hu => ?_
          obtain ⟨key, -, rfl⟩ := List.mem_map.1 hf
          have hp : c.path u = c.path s := hu.2
          refine Records.atField hc hu.1 (by rw [hp, hs]) (fun _ => by simp) fun _ => ?_
          have hbelow' := standsAt_setPath hc hu.1 ((c.path u).push (.str key) ((c.heap u).get n key))
          refine (ih _ hbelow'.1 (by rw [hbelow'.2]; simp [Path.push])).mono fun w hw => ?_
          rw [hbelow'.2, hp, Path.push_eq_along] at hw
          exact OfMembers.member (.inl ⟨key, rfl⟩) hw
        | _ => exact starts_pure ()
    · rintro l rfl -
      refine starts_each hc hI hs hbelow fun _ i e t _ _ ht => ?_
      refine (ih t ht.1 (by rw [ht.2]; simp [Path.along, Path.trail, Path.Link.push])).mono fun u hu => ?_
      rw [ht.2] at hu
      exact OfMembers.member (.inr ⟨i, rfl⟩) hu

end Moves

/-! ## All four traversals -/

/-- The frames that a traversal has added to the path when it starts its visitor, given the objects and the tip that it
was called at: those of its names, and that of an element. -/
def Operation.Opens (h : Heap) (tip : Value) : Operation → List Path.Link → Prop
  | .call names, fs => fs = Path.trail h tip names
  | .each names, fs | .map names, fs =>
    ∃ l, Path.reached h tip names = .list l ∧ ∃ i : Nat, ∃ e, e ≠ .null ∧ fs = Path.trail h tip names ++ [⟨.index i, e⟩]
  | .walk, fs => OfMembers fs

theorem starts_run (hc : c.Lawful I) {v : Visit σ ε β} (hk : Keeps c I v) (hI : I s) {tip : Value} {rest : List Value}
    (hs : (c.path s).stack = tip :: rest) (op : Operation) :
    Starts (fun t => ∃ fs, op.Opens (c.heap s) tip fs ∧ StandsAt c I ((c.path s).along fs) t) s (op.run c v)
      (op.run (c.beside (List σ)) v.watched) := by
  have hunit : Keeps c I (do let _ ← v : Visit σ ε Unit) := hk.bind fun _ => keeps_pure ()
  cases op with
  | call names =>
    refine (starts_call hc hI hs fun t ht => ?_).bind fun b _ _ => starts_pure [some b]
    exact starts_watched ⟨_, rfl, ht⟩
  | each names =>
    refine (starts_each hc hI hs hunit fun l i e t hl he ht => ?_).bind fun _ _ _ => starts_pure []
    exact (starts_watched ⟨_, ⟨l, hl, i, e, he, rfl⟩, ht⟩).bind fun _ _ _ => starts_pure ()
  | map names => exact starts_map hc hI hs hk fun l i e t hl he ht => starts_watched ⟨_, ⟨l, hl, i, e, he, rfl⟩, ht⟩
  | walk =>
    refine Starts.bind (Records.walk ?_) fun _ _ _ => starts_pure []
    exact starts_walkWithin hc hk _ s hI (by simp [hs])

/-- Where a traversal starts its visitor, its path has the frames that the traversal has added. -/
theorem exists_opens_of_mem_starts (hc : c.Lawful I) {v : Visit σ ε β} (hk : Keeps c I v) (hI : I s) {tip : Value}
    {rest : List Value} (hs : (c.path s).stack = tip :: rest) {op : Operation} {t : σ} (ht : t ∈ op.starts c v s) :
    ∃ fs, op.Opens (c.heap s) tip fs ∧ c.path t = (c.path s).along fs := by
  obtain ⟨runs, hw, hr⟩ := starts_run hc hk hI hs op []
  rw [Operation.starts, hw] at ht
  obtain ⟨fs, hfs, hp⟩ := hr t (by simpa using ht)
  exact ⟨fs, hfs, hp.2⟩

/-! ## Paths made from a root -/

/-- The path was made from a root with this name, or with none, and has since been copied and led down by any number of
traversals that are still open: it is the path of a state in which one of them starts its visitor. -/
inductive Obtained : Option Value → Value → Path → Prop
  | new (root : Value) (o : Path.Options) : Obtained none root (.new root o)
  | named (name root : Value) (o : Path.Options) : Obtained (some name) root (.named name root o)
  | replayed (root : Path.Link) (rest : List Path.Link) (o : Path.Options) :
      Obtained (if root.name = .null then none else some root.name) root.value
        (.ofStack (Path.replay (root :: rest)) o)
  | adapted {name : Option Value} {root : Value} {p : Path} (hp : Obtained name root p) (o : Path.Options) :
      Obtained name root (p.adapted o)
  | visited {name : Option Value} {root : Value} {σ ε β : Type} {c : Cursor σ} {I : σ → Prop} (hc : c.Lawful I)
      {v : Visit σ ε β} (hv : Keeps c I v) {s t : σ} (hI : I s) (hs : Obtained name root (c.path s)) (op : Operation)
      (ht : t ∈ op.starts c v s) : Obtained name root (c.path t)

/-- A path made from a root is that root with frames below it. -/
theorem Obtained.exists_frames {name : Option Value} {root : Value} {p : Path} (hp : Obtained name root p) :
    ∃ fs, p.stack = Frames.stack ⟨name, root, fs⟩ := by
  induction hp with
  | new root o => exact ⟨[], rfl⟩
  | named name root o => exact ⟨[], rfl⟩
  | replayed root rest o => exact ⟨rest, Frames.replay_eq_stack root rest⟩
  | adapted _ o ih => exact ih
  | visited hc hv hI _ op ht ih =>
    obtain ⟨fs, hfs⟩ := ih
    obtain ⟨rest, hstack, -⟩ := Frames.stack_eq_cons ⟨_, _, fs⟩
    obtain ⟨more, -, hp⟩ := exists_opens_of_mem_starts hc hv hI (hfs.trans hstack) ht
    refine ⟨fs ++ more, ?_⟩
    rw [hp, Path.along, hfs]
    exact (Frames.stack_extend ⟨_, _, fs⟩ more).symm

/-- Every path made from a root, at any depth of open traversals, has a stack of frames below that root and answers every
question as they do; and where a further traversal starts its visitor, the path has the frames that it adds below
these. -/
theorem path_refines_frames {name : Option Value} {root : Value} {p : Path} (hp : Obtained name root p) :
    ∃ F : Frames, F.rootName = name ∧ F.root = root ∧ p.stack = F.stack ∧ (∀ h, F.Answers p h) ∧
      ∀ {σ ε β : Type} {c : Cursor σ} {I : σ → Prop}, c.Lawful I → ∀ {v : Visit σ ε β}, Keeps c I v → ∀ {s t : σ}, I s →
        c.path s = p → ∀ op : Operation, t ∈ op.starts c v s →
          ∃ more, op.Opens (c.heap s) F.value more ∧ (c.path t).grammar = p.grammar ∧
            (c.path t).stack = (F.extend more).stack := by
  obtain ⟨fs, hfs⟩ := hp.exists_frames
  refine ⟨⟨name, root, fs⟩, rfl, rfl, hfs, Frames.answers_of_stack hfs, ?_⟩
  intro σ ε β c I hc v hv s t hI hs op ht
  obtain ⟨rest, hstack, -⟩ := Frames.stack_eq_cons ⟨name, root, fs⟩
  obtain ⟨more, hmore, hp'⟩ := exists_opens_of_mem_starts hc hv hI ((hs ▸ hfs).trans hstack) ht
  rw [hs] at hp'
  refine ⟨more, hmore, by rw [hp']; rfl, ?_⟩
  rw [hp', Path.along, hfs, Frames.stack_extend]

/-- A tour of a block that holds itself in a list with a hole, from a path that has the block for the name of its root
as well. -/
def selfNamedTour : Tour Unit where
  heap := {
    nodes := #[{ tag := "BlockStatement", fields := .ofEntries [("body", .list ⟨0⟩)] }]
    lists := #[[.null, .node ⟨0⟩]] }
  path := .named (.node ⟨0⟩) (.node ⟨0⟩)

/-- The path at the element of the list. -/
def selfNamedPath : Path := selfNamedTour.path.along [⟨.str "body", .list ⟨0⟩⟩, ⟨.index 1, .node ⟨0⟩⟩]

theorem path_refines_frames_selfNamed : Obtained (some (.node ⟨0⟩)) (.node ⟨0⟩) selfNamedPath ∧
    ∃ F : Frames, F.rootName = some (.node ⟨0⟩) ∧ F.root = .node ⟨0⟩ ∧ selfNamedPath.stack = F.stack ∧
      F.Answers selfNamedPath selfNamedTour.heap := by
  have hp : Obtained (some (.node ⟨0⟩)) (.node ⟨0⟩) selfNamedPath :=
    .visited (c := Tour.cursor) (v := (pure () : Visit (Tour Unit) Empty Unit)) (s := selfNamedTour)
      (t := { selfNamedTour with path := selfNamedPath }) Tour.cursor_lawful (keeps_pure ()) trivial (.named _ _ {})
      (.each [.str "body"]) (by
        have : (Operation.each [.str "body"]).starts Tour.cursor (pure () : Visit (Tour Unit) Empty Unit) selfNamedTour =
            [{ selfNamedTour with path := selfNamedPath }] := rfl
        simp [this])
  obtain ⟨F, hname, hroot, hstack, hanswers, -⟩ := path_refines_frames hp
  exact ⟨hp, F, hname, hroot, hstack, hanswers _⟩

example : selfNamedPath.isDuplicate selfNamedTour.heap = .ok true ∧ selfNamedPath.length = 6 ∧
    selfNamedPath.names = [.node ⟨0⟩, .str "body", .index 1] := by decide

end Bracketing
