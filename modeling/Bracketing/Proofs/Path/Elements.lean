import Bracketing.Proofs.Path.Starts

/-!
# Visits of the elements of a list

The two traversals of elements, with and without results, do the same from every state (`each_eq_map`): one is the other
with its results forgotten. What they do is said by `ElementRuns`, one case for each thing that can happen at an element:
a hole is passed over, the run of the visitor is done and its result takes the element's place, or the run is not done
and ends the traversal. The stack of a run depends on nothing that the runs before it have done.

- `ElementRuns.runs_inOrder`, `ElementRuns.accounts`, `ElementRuns.results`: where the runs are made, how the traversal
  ends, and where its results are;
- `elements_in_step`: all of this for both traversals, from any path and through any names.
-/

namespace Bracketing

open Bracketing.Tree Stack

variable {σ ε α β γ : Type} {c : Cursor σ} {I : σ → Prop}

/-! ## Visits that differ in their results only -/

/-- From every state the visits end in the same state and alike, apart from their results. -/
def SameEnds (v : Visit σ ε α) (w : Visit σ ε β) : Prop := ∀ s, (v s).1.forget = (w s).1.forget ∧ (v s).2 = (w s).2

theorem sameEnds_pure (a : α) (b : β) : SameEnds (pure a : Visit σ ε α) (pure b : Visit σ ε β) := fun _ => ⟨rfl, rfl⟩

/-- The same first step, and next steps that differ in their results only. -/
theorem SameEnds.bind_left (v : Visit σ ε γ) {f : γ → Visit σ ε α} {g : γ → Visit σ ε β}
    (hf : ∀ a, SameEnds (f a) (g a)) : SameEnds (v >>= f) (v >>= g) := by
  intro s
  rcases hv : v s with ⟨out, t⟩
  cases out with
  | done a =>
    rw [bind_done hv, bind_done hv]
    exact hf a t
  | failed e =>
    rw [bind_failed hv, bind_failed hv]
    exact ⟨rfl, rfl⟩
  | stopped x =>
    rw [bind_stopped hv, bind_stopped hv]
    exact ⟨rfl, rfl⟩

/-- First steps and next steps that differ in their results only. -/
theorem SameEnds.bind {δ : Type} {v : Visit σ ε γ} {w : Visit σ ε δ} {f : γ → Visit σ ε α} {g : δ → Visit σ ε β}
    (hv : SameEnds v w) (hf : ∀ a b, SameEnds (f a) (g b)) : SameEnds (v >>= f) (w >>= g) := by
  intro s
  obtain ⟨ho, ht⟩ := hv s
  rcases hvs : v s with ⟨out, t⟩
  rcases hws : w s with ⟨out', t'⟩
  rw [hvs, hws] at ho ht
  obtain rfl : t = t' := ht
  cases out <;> cases out' <;> cases ho
  · rw [bind_done hvs, bind_done hws]
    exact hf _ _ t
  · rw [bind_failed hvs, bind_failed hws]
    exact ⟨rfl, rfl⟩
  · rw [bind_stopped hvs, bind_stopped hws]
    exact ⟨rfl, rfl⟩

/-- What is made of the results does not matter. -/
theorem SameEnds.map_right {v : Visit σ ε α} {w : Visit σ ε β} (hv : SameEnds v w) (f : β → γ) :
    SameEnds v (do return f (← w)) := by
  intro s
  obtain ⟨ho, ht⟩ := hv s
  rcases hw : w s with ⟨out, t⟩
  rw [hw] at ho ht
  cases out with
  | done b =>
    rw [bind_done hw]
    exact ⟨ho, ht⟩
  | failed e =>
    rw [bind_failed hw]
    exact ⟨ho, ht⟩
  | stopped x =>
    rw [bind_stopped hw]
    exact ⟨ho, ht⟩

theorem SameEnds.refl (v : Visit σ ε α) : SameEnds v v := fun _ => ⟨rfl, rfl⟩

theorem SameEnds.symm {v : Visit σ ε α} {w : Visit σ ε β} (hv : SameEnds v w) : SameEnds w v :=
  fun s => ⟨(hv s).1.symm, (hv s).2.symm⟩

theorem SameEnds.restoring {v : Visit σ ε α} {w : Visit σ ε β} (hv : SameEnds v w) :
    SameEnds (c.restoring v) (c.restoring w) := by
  intro s
  obtain ⟨ho, ht⟩ := hv s
  simp only [Cursor.restoring, ht, and_true]
  exact ho

/-- A loop without results and a loop with them. -/
theorem SameEnds.forEach_collect {f : γ → Visit σ ε Unit} {g : γ → Visit σ ε β} (hf : ∀ a, SameEnds (f a) (g a)) :
    ∀ as, SameEnds (Visit.forEach f as) (Visit.collect g as)
  | [] => sameEnds_pure () []
  | a :: as => SameEnds.bind (hf a) fun _ b => (SameEnds.forEach_collect hf as).map_right (b :: ·)

theorem sameEnds_atElement (c : Cursor σ) (l : ListId) (v : Visit σ ε α) (i : Nat) :
    SameEnds (do let _ ← c.atElement l (do let _ ← v) i : Visit σ ε Unit) (c.atElement l v i) := by
  have hv : SameEnds (do let _ ← v : Visit σ ε Unit) v := ((SameEnds.refl v).map_right _).symm
  have hat : SameEnds (c.atElement l v i) (c.atElement l (do let _ ← v : Visit σ ε Unit) i) := by
    refine SameEnds.bind_left _ fun s => ?_
    split
    · exact sameEnds_pure none none
    · refine SameEnds.restoring (SameEnds.bind_left _ fun _ => ?_)
      exact SameEnds.bind hv.symm fun a b => sameEnds_pure (some a) (some b)
  exact (hat.map_right _).symm

/-- The traversal of elements without results is the one with results, which are forgotten. -/
theorem each_eq_map (c : Cursor σ) (names : List Value) (v : Visit σ ε α) (s : σ) :
    c.each names (do let _ ← v) s = ((c.map names v s).1.forget, (c.map names v s).2) := by
  have hends : SameEnds (c.each names (do let _ ← v)) (c.map names v) := by
    refine SameEnds.restoring (SameEnds.bind_left _ fun l => SameEnds.bind_left _ fun is => ?_)
    exact SameEnds.forEach_collect (sameEnds_atElement c l v) is
  obtain ⟨ho, ht⟩ := hends s
  rw [Outcome.forget_unit] at ho
  exact Prod.ext ho ht

/-! ## What happens at the elements -/

/-- The outcome with its result changed. -/
def Outcome.map (f : α → β) : Outcome ε α → Outcome ε β
  | .done a => .done (f a)
  | .failed e => .failed e
  | .stopped x => .stopped x

/-- The run at an element: its stack is the element and its index on top of the given stack. -/
def runAt (base : List Value) (i : Nat) (e : Value) (o : Outcome ε α) : Run ε α := ⟨e :: .index i :: base, o⟩

/-- The outcome and the runs of a traversal of elements, the first of which has the given index. -/
inductive ElementRuns (base : List Value) : Nat → List Value → Outcome ε (List (Option α)) → List (Run ε α) → Prop
  | nil {i : Nat} : ElementRuns base i [] (.done []) []
  | hole {i : Nat} {es : List Value} {out : Outcome ε (List (Option α))} {runs : List (Run ε α)}
      (h : ElementRuns base (i + 1) es out runs) : ElementRuns base i (.null :: es) (out.map (none :: ·)) runs
  | done {i : Nat} {e : Value} {es : List Value} {a : α} {out : Outcome ε (List (Option α))} {runs : List (Run ε α)}
      (he : e ≠ .null) (h : ElementRuns base (i + 1) es out runs) :
      ElementRuns base i (e :: es) (out.map (some a :: ·)) (runAt base i e (.done a) :: runs)
  | ended {i : Nat} {e : Value} {es : List Value} {o : Outcome ε α} (he : e ≠ .null) (ho : o.passes false = false) :
      ElementRuns base i (e :: es) (o.map fun _ => []) [runAt base i e o]

/-- One element: a hole, or a run. -/
def AtElement (base : List Value) (i : Nat) (e : Value) (out : Outcome ε (Option α)) (runs : List (Run ε α)) : Prop :=
  (e = .null ∧ out = .done none ∧ runs = []) ∨ (e ≠ .null ∧ ∃ o, out = o.map some ∧ runs = [runAt base i e o])

/-- The runs at the elements after one that the traversal has passed. -/
theorem AtElement.cons {base es : List Value} {i : Nat} {e : Value} {b : Option α} {runs more : List (Run ε α)}
    {out : Outcome ε (List (Option α))} (h : AtElement base i e (.done b) runs) (hm : ElementRuns base (i + 1) es out more) :
    ElementRuns base i (e :: es) (out.map (b :: ·)) (runs ++ more) := by
  rcases h with ⟨rfl, hb, rfl⟩ | ⟨he, o, ho, rfl⟩
  · cases hb
    exact .hole hm
  · cases o with
    | done a =>
      cases ho
      exact .done he hm
    | _ => cases ho

/-- An element at which the traversal ends. -/
theorem AtElement.ended {base es : List Value} {i : Nat} {e : Value} {out : Outcome ε (Option α)}
    {runs : List (Run ε α)} (h : AtElement base i e out runs) (hn : out.passes false = false) :
    ElementRuns base i (e :: es) (out.map fun _ => []) runs := by
  rcases h with ⟨-, rfl, -⟩ | ⟨he, o, rfl, rfl⟩
  · cases hn
  · cases o with
    | done a => cases hn
    | failed x => exact .ended (o := .failed x) he rfl
    | stopped x => exact .ended (o := .stopped x) he rfl

section Records

variable {p : Path} {L : List Value} {l : ListId} {v : Visit σ ε α} {u : σ} (hc : c.Lawful I)
  (hlist : ∀ t, I t → (c.heap t).list l = L)
include hc hlist

theorem records_element {i : Nat} {e : Value} (hu : StandsAt c I p u) (hi : L[i]? = some e) :
    Records (AtElement p.stack i e) u (c.atElement l v i) ((c.beside (List (Run ε α))).atElement l (c.recorded v) i) := by
  have he : elementAt (c.heap u) l i = e := by rw [elementAt, hlist u hu.1, hi]; rfl
  refine Records.atElement (fun hn => .inl ⟨he ▸ hn, rfl, rfl⟩) fun hn => ?_
  rw [he] at hn ⊢
  have hat := standsAt_setPath hc hu.1 ((c.path u).push (.index i) e)
  have hstack : (c.path (c.setPath u ((c.path u).push (.index i) e))).stack = e :: .index i :: p.stack := by
    rw [hat.2, hu.2]
    rfl
  refine Records.bind (records_recorded v _) ?_ ?_ ?_
  · rintro a t runs - rfl
    exact records_pure (.inr ⟨hn, .done a, rfl, by simp [runAt, hstack]⟩)
  · rintro x runs rfl
    exact .inr ⟨hn, .failed x, rfl, by rw [runAt, hstack]⟩
  · rintro x runs rfl
    exact .inr ⟨hn, .stopped x, rfl, by rw [runAt, hstack]⟩

/-- The loop over the elements from an index on. Between two elements the path is the traversal's own again. -/
theorem records_collect (hk : Keeps c I v) : ∀ (es : List Value) (i : Nat) (u : σ), StandsAt c I p u → L.drop i = es →
    Records (ElementRuns p.stack i es) u (Visit.collect (c.atElement l v) (List.range' i es.length))
      (Visit.collect ((c.beside (List (Run ε α))).atElement l (c.recorded v)) (List.range' i es.length))
  | [], _, _, _, _ => records_pure .nil
  | e :: es, i, u, hu, hes => by
    have hi : L[i]? = some e := by
      have h0 : (L.drop i)[0]? = some e := by rw [hes]; rfl
      simpa using h0
    have hrest : L.drop (i + 1) = es := by rw [← List.tail_drop, hes]; rfl
    rw [List.length_cons, List.range'_succ]
    refine Records.bind (records_element hc hlist hu hi) (fun b t runs ht hr => ?_) ?_ ?_
    · have hnext : StandsAt c I p t := by
        have := keeps_standsAt (hk.atElement hc l i) hu
        rwa [ht] at this
      refine Records.bind (records_collect hk es (i + 1) t hnext hrest) ?_ ?_ ?_
      · exact fun bs w more _ hm => records_pure (by simpa [Outcome.map] using hr.cons hm)
      · exact fun x more hm => hr.cons hm
      · exact fun x more hm => hr.cons hm
    · exact fun x runs hr => hr.ended rfl
    · exact fun x runs hr => hr.ended rfl

end Records

/-! ## What the runs come to -/

/-- The elements that are no holes, with their indices, the first of which is given. -/
def present (i : Nat) (es : List Value) : List (Value × Nat) := (es.zipIdx i).filter fun e => e.1 ≠ .null

/-- The stack at an element with its index. -/
def stackAt (base : List Value) (e : Value × Nat) : List Value := e.1 :: .index e.2 :: base

theorem present_hole (i : Nat) (es : List Value) : present i (.null :: es) = present (i + 1) es := by
  simp [present]

theorem present_cons {i : Nat} {e : Value} {es : List Value} (he : e ≠ .null) :
    present i (e :: es) = (e, i) :: present (i + 1) es := by
  simp [present, he]

/-- The stacks of different elements differ. -/
theorem nodup_stackAt (base : List Value) (i : Nat) (es : List Value) : ((present i es).map (stackAt base)).Nodup := by
  have hidx : ((present i es).map Prod.snd).Nodup := by
    refine List.Nodup.sublist (List.filter_sublist.map Prod.snd) ?_
    rw [List.zipIdx_map_snd]
    exact List.nodup_range'
  refine (List.Nodup.of_map _ hidx).map_on fun a ha b hb hab => ?_
  simp only [stackAt, List.cons.injEq, Value.index.injEq] at hab
  exact Prod.ext hab.1 (by omega)

namespace ElementRuns

variable {base es : List Value} {i : Nat} {out : Outcome ε (List (Option α))} {runs : List (Run ε α)}

/-- Runs are made at the elements that are no holes, in order, from the first on. -/
theorem runs_inOrder (h : ElementRuns base i es out runs) : runs.map (·.stack) <+: (present i es).map (stackAt base) := by
  induction h with
  | nil => exact List.nil_prefix
  | hole _ ih => rwa [present_hole]
  | done he _ ih =>
    rw [present_cons he]
    exact (List.prefix_cons_inj _).2 ih
  | ended he _ =>
    rw [present_cons he]
    exact (List.prefix_cons_inj _).2 List.nil_prefix

/-- All runs but the last are done, and if the last is not, its outcome is that of the traversal. -/
theorem accounts (h : ElementRuns base i es out runs) : Accounts false (fun _ => False) runs out.forget := by
  have hmap : ∀ (o : Outcome ε (List (Option α))) (b : Option α), (o.map (b :: ·)).forget = o.forget := by
    intro o b
    cases o <;> rfl
  induction h with
  | nil => exact .passed (by simp) (.inl rfl)
  | hole _ ih => rwa [hmap]
  | @done i e es a out runs he _ ih =>
    have hone : ∀ r ∈ [(runAt base i e (.done a) : Run ε α)], r.outcome.passes false = true := by
      simp [runAt, Outcome.passes]
    rw [hmap]
    exact ih.prepend hone
  | @ended i e es o he ho =>
    have hf : (o.map fun _ => ([] : List (Option α))).forget = o.forget := by cases o <;> rfl
    rw [hf]
    exact .single (r := runAt base i e o) ho

/-- A traversal that is done has made a run at every element that is no hole. -/
theorem runs_all (h : ElementRuns base i es out runs) {rs : List (Option α)} (hd : out = .done rs) :
    runs.map (·.stack) = (present i es).map (stackAt base) := by
  induction h generalizing rs with
  | nil => rfl
  | @hole _ _ out _ _ ih =>
    cases out with
    | done rs' => rw [present_hole, ih rfl]
    | _ => cases hd
  | @done _ _ _ _ out _ he _ ih =>
    cases out with
    | done rs' =>
      rw [present_cons he, List.map_cons, List.map_cons, ih rfl]
      rfl
    | _ => cases hd
  | @ended _ _ _ o _ ho =>
    cases o with
    | done a => cases ho
    | _ => cases hd

/-- Every element has a place in the results: a hole has none, another the result of its run. -/
theorem results (h : ElementRuns base i es out runs) {rs : List (Option α)} (hd : out = .done rs) :
    rs.length = es.length ∧ ∀ k e, es[k]? = some e → (e = .null → rs[k]? = some none) ∧
      (e ≠ .null → ∃ a, runAt base (i + k) e (.done a) ∈ runs ∧ rs[k]? = some (some a)) := by
  induction h generalizing rs with
  | nil =>
    cases hd
    simp
  | @hole i es out runs _ ih =>
    cases out with
    | done rs' =>
      cases hd
      obtain ⟨hlen, hplace⟩ := ih rfl
      refine ⟨by simp [hlen], fun k e hk => ?_⟩
      cases k with
      | zero =>
        cases hk
        exact ⟨fun _ => rfl, fun hn => absurd rfl hn⟩
      | succ k =>
        rw [Nat.add_comm k 1, ← Nat.add_assoc]
        simpa [Nat.add_comm 1 k] using hplace k e (by simpa using hk)
    | _ => cases hd
  | @done i e' es a out runs he _ ih =>
    cases out with
    | done rs' =>
      cases hd
      obtain ⟨hlen, hplace⟩ := ih rfl
      refine ⟨by simp [hlen], fun k e hk => ?_⟩
      cases k with
      | zero =>
        cases hk
        exact ⟨fun hn => absurd hn he, fun _ => ⟨a, List.mem_cons_self, rfl⟩⟩
      | succ k =>
        obtain ⟨hnull, hrun⟩ := hplace k e (by simpa using hk)
        refine ⟨fun hn => by simpa using hnull hn, fun hn => ?_⟩
        obtain ⟨b, hb, hrs⟩ := hrun hn
        rw [Nat.add_comm k 1, ← Nat.add_assoc]
        exact ⟨b, List.mem_cons_of_mem _ hb, by simpa [Nat.add_comm 1 k] using hrs⟩
    | _ => cases hd
  | @ended _ _ _ o _ ho =>
    cases o with
    | done a => cases ho
    | _ => cases hd

/-- With nothing in the places of holes, there is nothing at just the holes and where the visitor gave nothing. -/
theorem nothing_iff {rs : List (Option α)} (h : ElementRuns base 0 es (.done rs) runs) (nothing : α) {k : Nat} {e : Value}
    (hk : es[k]? = some e) : (rs.map (·.getD nothing))[k]? = some nothing ↔
      e = .null ∨ runAt base k e (.done nothing) ∈ runs := by
  obtain ⟨hnull, hrun⟩ := (h.results rfl).2 k e hk
  by_cases he : e = .null
  · simp [he, hnull he]
  · obtain ⟨a, ha, hrs⟩ := hrun he
    rw [Nat.zero_add] at ha
    have hone : runAt base k e (.done nothing) ∈ runs ↔ a = nothing := by
      refine ⟨fun hn => ?_, fun hn => hn ▸ ha⟩
      -- no two runs have the same stack
      have hnodup : (runs.map (·.stack)).Nodup := h.runs_all rfl ▸ nodup_stackAt base 0 es
      have := List.inj_on_of_nodup_map hnodup ha hn rfl
      cases this
      rfl
    simp [he, hrs, hone]

end ElementRuns

/-! ## Going down to a list -/

/-- The value has a member of the name: a field or what is read like one, an element, or an entry. -/
inductive Path.HasMember (h : Heap) : Value → Value → Prop
  | field {n : NodeId} {key : String} (hk : key ∈ "type" :: "loc" :: "extra" :: (h.node n).fields.keys) :
      HasMember h (.node n) (.str key)
  | element {l : ListId} {i : Nat} (hi : i < (h.list l).length) : HasMember h (.list l) (.index i)
  | entry {m : MapId} {key : String} (hk : key ∈ (h.map m).keys) : HasMember h (.map m) (.str key)

theorem Tree.Record.get_of_not_mem {r : Record} {key : String} (hk : key ∉ r.keys) : r.get key = .null := by
  have hnone : r.entries.lookup key = none := by
    rw [List.lookup_eq_none_iff]
    intro e he
    have hne : e.1 ≠ key := fun h => hk (List.mem_map.2 ⟨e, he, h⟩)
    simpa using hne.symm
  rw [Record.get, Record.get?, hnone]
  rfl

/-- Under a name that a value has no member of there is nothing. -/
theorem Path.resolve_of_not_hasMember {h : Heap} {v name : Value} (hm : ¬ Path.HasMember h v name) :
    Path.resolve h v name = .null := by
  cases v with
  | node n =>
    cases name with
    | str key =>
      have hk : key ∉ "type" :: "loc" :: "extra" :: (h.node n).fields.keys := fun hk => hm (.field hk)
      simp only [List.mem_cons, not_or] at hk
      simp [Path.resolve, Heap.get, hk, Record.get_of_not_mem]
    | _ => rfl
  | list l =>
    cases name with
    | index i =>
      rw [Path.resolve]
      split
      · rename_i hi
        have hlen : ¬ i.toNat < (h.list l).length := by
          intro hlt
          have he := Path.HasMember.element (h := h) (i := i.toNat) hlt
          rw [Int.toNat_of_nonneg hi] at he
          exact hm he
        simp [List.getElem?_eq_none (Nat.le_of_not_lt hlen)]
      · rfl
    | _ => rfl
  | map m =>
    cases name with
    | str key => exact Record.get_of_not_mem fun hk => hm (.entry hk)
    | _ => rfl
  | _ => rfl

theorem Path.trail_names (h : Heap) : ∀ (names : List Value) (v : Value), (Path.trail h v names).map (·.name) = names
  | [], _ => rfl
  | name :: names, v => by rw [Path.trail, List.map_cons, Path.trail_names h names]

/-- Every link holds what is under its name in what the links before it lead to. -/
theorem Path.value_of_trail (h : Heap) {names : List Value} {v : Value} {above below : List Path.Link} {link : Path.Link}
    (ht : Path.trail h v names = above ++ link :: below) :
    link.value = Path.resolve h (Path.reached h v (above.map (·.name))) link.name := by
  induction above generalizing v names with
  | nil =>
    cases names with
    | nil => cases ht
    | cons name names =>
      cases ht
      rfl
  | cons first above ih =>
    cases names with
    | nil => cases ht
    | cons name names =>
      rw [Path.trail, List.cons_append, List.cons.injEq] at ht
      rw [ih ht.2, ← ht.1]
      rfl

/-- Recording from a state that two visits come to alike. -/
theorem Records.after {ρ : Type} {law : Outcome ε α → List ρ → Prop} {s t : σ} {v v' : Visit σ ε α}
    {w w' : Visit (σ × List ρ) ε α} (hv : v s = v' t) (hw : ∀ log, w (s, log) = w' (t, log)) (h : Records law t v' w') :
    Records law s v w := by
  intro log
  rw [hv, hw]
  exact h log

section Lists

variable {names : List Value} {tip : Value} {rest : List Value} {s : σ} (hc : c.Lawful I) (hI : I s)
  (hs : (c.path s).stack = tip :: rest)
include hc hI hs

theorem descendList_list {l : ListId} (hl : Path.reached (c.heap s) tip names = .list l) :
    (c.descendList names : Visit σ ε ListId) s =
      (.done l, c.setPath s ((c.path s).along (Path.trail (c.heap s) tip names))) := by
  rw [Cursor.descendList, bind_done (descend_eq hc hI hs names), hl, Path.descended_eq_along]
  rfl

theorem descendList_other (hl : ∀ l, Path.reached (c.heap s) tip names ≠ .list l) :
    (c.descendList names : Visit σ ε ListId) s =
      (.failed (.notList ((c.path s).along (Path.trail (c.heap s) tip names)).name
          (Path.reached (c.heap s) tip names).typeName),
        c.setPath s ((c.path s).along (Path.trail (c.heap s) tip names))) := by
  rw [Cursor.descendList, bind_done (descend_eq hc hI hs names), Path.descended_eq_along]
  generalize Path.reached (c.heap s) tip names = w at hl ⊢
  cases w with
  | list l => exact absurd rfl (hl l)
  | _ =>
    show (Outcome.failed (.notList (c.path (c.setPath s _)).name _), _) = _
    rw [hc.path_setPath s _ hI]

/-- Recording the elements of the list that names lead to: their runs are made with the links of the names. -/
theorem records_map {v : Visit σ ε α} {l : ListId} (hl : Path.reached (c.heap s) tip names = .list l)
    (hk : Keeps c (fun t => I t ∧ (c.heap t).list l = (c.heap s).list l) v) :
    Records (ElementRuns ((c.path s).along (Path.trail (c.heap s) tip names)).stack 0 ((c.heap s).list l)) s
      (c.map names v) ((c.beside (List (Run ε α))).map names (c.recorded v)) := by
  have hlaw := hc.and_heap fun h => h.list l = (c.heap s).list l
  have hat := standsAt_setPath hlaw ⟨hI, rfl⟩ ((c.path s).along (Path.trail (c.heap s) tip names))
  refine Records.restoring (Records.after (bind_done (descendList_list hc hI hs hl))
    (fun log => bind_done (descendList_list (s := (s, log)) (beside_lawful hc) hI hs hl)) ?_)
  generalize c.setPath s _ = t at hat ⊢
  refine Records.state_bind fun log => ?_
  show Records _ t (Visit.collect _ (List.range ((c.heap t).list l).length))
    (Visit.collect _ (List.range ((c.heap t).list l).length))
  rw [hat.1.2, List.range_eq_range']
  exact records_collect hlaw (fun _ hu => hu.2) hk _ 0 t hat rfl

theorem records_map_other (v : Visit σ ε α) (hl : ∀ l, Path.reached (c.heap s) tip names ≠ .list l) :
    Records (fun out runs => runs = [] ∧ out = .failed (.notList
        ((c.path s).along (Path.trail (c.heap s) tip names)).name (Path.reached (c.heap s) tip names).typeName)) s
      (c.map names v) ((c.beside (List (Run ε α))).map names (c.recorded v)) := by
  have hfail : (c.descendList names >>= fun l => c.indices l >>= Visit.collect (c.atElement l v)) s = _ :=
    bind_failed (descendList_other hc hI hs hl)
  refine Records.restoring fun log => ⟨[], ?_, rfl, ?_⟩
  · rw [hfail]
    refine (bind_failed (descendList_other (s := (s, log)) (beside_lawful hc) hI hs hl)).trans ?_
    rw [List.append_nil]
    rfl
  · rw [hfail]

end Lists

theorem records_map_empty {names : List Value} {s : σ} (hs : (c.path s).stack = []) (v : Visit σ ε α) :
    Records (fun out runs => runs = [] ∧ out = .stopped .missing) s (c.map names v)
      ((c.beside (List (Run ε α))).map names (c.recorded v)) := by
  have hstop : (c.descendList names >>= fun l => c.indices l >>= Visit.collect (c.atElement l v)) s = _ :=
    bind_stopped (bind_stopped (descend_empty hs names))
  refine Records.restoring fun log => ⟨[], ?_, rfl, ?_⟩
  · rw [hstop]
    refine (bind_stopped (bind_stopped (descend_empty (c := c.beside _) (s := (s, log)) hs names))).trans ?_
    rw [List.append_nil]
  · rw [hstop]

/-! ## Both traversals -/

/-- What a traversal of elements comes to at a list whose elements are given and that was reached with a stack. -/
structure CoversList (base es : List Value) (out : Outcome ε (List (Option α))) (runs : List (Run ε α)) : Prop where
  /-- Runs are made at the elements that are no holes, in order, from the first on. -/
  inOrder : runs.map (·.stack) <+: (present 0 es).map (stackAt base)
  /-- Only the last run may fail or stop, and if it does, the traversal ends so too. -/
  accounts : Accounts false (fun _ => False) runs out.forget
  /-- If no run does, there is one for every element that is no hole. -/
  all : ∀ {rs}, out = .done rs → runs.map (·.stack) = (present 0 es).map (stackAt base)
  length : ∀ {rs}, out = .done rs → rs.length = es.length
  /-- The place of a hole stays empty, and every other has the result of the run at its element. -/
  places : ∀ {rs k e}, out = .done rs → es[k]? = some e → (e = .null → rs[k]? = some none) ∧
    (e ≠ .null → ∃ a, runAt base k e (.done a) ∈ runs ∧ rs[k]? = some (some a))
  /-- If empty places hold nothing, nothing is in just the places of holes and where a run gave nothing. -/
  nothing : ∀ {rs k e} (nothing : α), out = .done rs → es[k]? = some e →
    ((rs.map (·.getD nothing))[k]? = some nothing ↔ e = .null ∨ runAt base k e (.done nothing) ∈ runs)

theorem ElementRuns.coversList {base es : List Value} {out : Outcome ε (List (Option α))} {runs : List (Run ε α)}
    (h : ElementRuns base 0 es out runs) : CoversList base es out runs where
  inOrder := h.runs_inOrder
  accounts := h.accounts
  all := h.runs_all
  length hd := (h.results hd).1
  places hd hk := by simpa using (h.results hd).2 _ _ hk
  nothing a hd hk := ElementRuns.nothing_iff (hd ▸ h) a hk

/-- What a traversal of elements comes to from a path and through names. -/
structure CoversFrom (h : Heap) (p : Path) (names : List Value) (out : Outcome ε (List (Option α)))
    (runs : List (Run ε α)) : Prop where
  /-- There is no way down from an empty path. -/
  empty : p.stack = [] → runs = [] ∧ out = .stopped .missing
  /-- The list that the names lead to is covered, with the links of the names on the stack. -/
  list : ∀ {tip rest l}, p.stack = tip :: rest → Path.reached h tip names = .list l →
    CoversList (p.along (Path.trail h tip names)).stack (h.list l) out runs
  /-- Where the names lead to no list, the traversal fails without a run. -/
  other : ∀ {tip rest}, p.stack = tip :: rest → (∀ l, Path.reached h tip names ≠ .list l) → runs = [] ∧
    out = .failed (.notList (p.along (Path.trail h tip names)).name (Path.reached h tip names).typeName)

theorem records_coversFrom (hc : c.Lawful I) (names : List Value) (v : Visit σ ε α) {s : σ} (hI : I s)
    (hk : ∀ tip rest l, (c.path s).stack = tip :: rest → Path.reached (c.heap s) tip names = .list l →
      Keeps c (fun t => I t ∧ (c.heap t).list l = (c.heap s).list l) v) :
    Records (CoversFrom (c.heap s) (c.path s) names) s (c.map names v)
      ((c.beside (List (Run ε α))).map names (c.recorded v)) := by
  cases hs : (c.path s).stack with
  | nil =>
    refine (records_map_empty hs v).mono fun out runs hr => ⟨fun _ => hr, fun hs' => ?_, fun hs' => ?_⟩ <;>
      cases hs.symm.trans hs'
  | cons tip rest =>
    have hne : (c.path s).stack ≠ [] := by simp [hs]
    by_cases hl : ∃ l, Path.reached (c.heap s) tip names = .list l
    · obtain ⟨l, hl⟩ := hl
      refine (records_map hc hI hs hl (hk tip rest l hs hl)).mono fun out runs hr =>
        ⟨fun h => absurd h hne, fun hs' hl' => ?_, fun hs' hn => ?_⟩ <;> cases hs.symm.trans hs'
      · cases hl.symm.trans hl'
        exact hr.coversList
      · exact absurd hl (hn l)
    · have hn : ∀ l, Path.reached (c.heap s) tip names ≠ .list l := fun l hl' => hl ⟨l, hl'⟩
      refine (records_map_other hc hI hs v hn).mono fun out runs hr =>
        ⟨fun h => absurd h hne, fun hs' hl' => ?_, fun hs' _ => ?_⟩ <;> cases hs.symm.trans hs'
      · exact absurd hl' (hn _)
      · exact hr

/-- The traversal with results and the one without them make the same runs and end alike in the same state, whatever
visitor they have, as long as it leaves the path as it found it and does not change the list. They cover the list that
the names lead to, or fail without a run where there is none. A name that there is no member of leads to nothing, and
the names after it are gone through all the same. -/
theorem elements_in_step (hc : c.Lawful I) (names : List Value) (v : Visit σ ε α) {s : σ} (hI : I s)
    (hk : ∀ tip rest l, (c.path s).stack = tip :: rest → Path.reached (c.heap s) tip names = .list l →
      Keeps c (fun t => I t ∧ (c.heap t).list l = (c.heap s).list l) v) :
    (∃ out t runs, c.map names v s = (out, t) ∧ c.each names (do let _ ← v) s = (out.forget, t) ∧
      (c.beside (List (Run ε α))).map names (c.recorded v) (s, []) = (out, t, runs) ∧
      (c.beside (List (Run ε α))).each names (do let _ ← c.recorded v) (s, []) = (out.forget, t, runs) ∧
      CoversFrom (c.heap s) (c.path s) names out runs) ∧
    ∀ tip, (Path.trail (c.heap s) tip names).map (·.name) = names ∧
      ∀ above link below, Path.trail (c.heap s) tip names = above ++ link :: below →
        let holder := Path.reached (c.heap s) tip (above.map (·.name))
        link.value = Path.resolve (c.heap s) holder link.name ∧
          (¬ Path.HasMember (c.heap s) holder link.name → link.value = .null) := by
  obtain ⟨runs, hw, hcovers⟩ := records_coversFrom hc names v hI hk []
  have heach : (c.beside (List (Run ε α))).each names (do let _ ← c.recorded v) (s, []) =
      ((c.map names v s).1.forget, (c.map names v s).2, runs) := by
    rw [each_eq_map, hw]
    rfl
  refine ⟨⟨(c.map names v s).1, (c.map names v s).2, runs, rfl, each_eq_map c names v s, hw, heach, hcovers⟩, ?_⟩
  refine fun tip => ⟨Path.trail_names _ names tip, fun above link below hlinks => ?_⟩
  have hvalue := Path.value_of_trail (c.heap s) hlinks
  exact ⟨hvalue, fun hm => hvalue.trans (Path.resolve_of_not_hasMember hm)⟩

/-- A tour of a block that has itself, a node that is not there and two holes for its statements. -/
def gapTour : Tour Nat where
  heap := {
    nodes := #[{ tag := "BlockStatement", fields := .ofEntries [("body", .list ⟨0⟩)] }]
    lists := #[[.null, .noNode, .null, .node ⟨0⟩]] }
  path := .new (.node ⟨0⟩)

/-- A visitor that notes how many notes there are, recovers from a stop further down, and gives the number of notes. -/
def gapVisitor : Program (fun t : Tour Nat => True ∧ t.heap.list ⟨0⟩ = gapTour.heap.list ⟨0⟩) Empty Nat :=
  .change (fun t => { t with rows := t.rows ++ [t.rows.length] }) (fun _ ht => ht)
    (.move .walk (.stop (.raised "below")) fun _ => .ask fun t => .give t.rows.length)

theorem elements_in_step_gapTour : ∃ out t runs,
    Tour.cursor.map [.str "body"] (gapVisitor.run Tour.cursor) gapTour = (out, t) ∧
      Tour.cursor.each [.str "body"] (do let _ ← gapVisitor.run Tour.cursor) gapTour = (out.forget, t) ∧
      runs.map Run.stack = [[.noNode, .index 1, .list ⟨0⟩, .str "body", .node ⟨0⟩],
        [.node ⟨0⟩, .index 3, .list ⟨0⟩, .str "body", .node ⟨0⟩]] ∧
      CoversFrom gapTour.heap gapTour.path [.str "body"] out runs := by
  have hlaw := (Tour.cursor_lawful (α := Nat)).and_heap fun h => h.list ⟨0⟩ = gapTour.heap.list ⟨0⟩
  have hdone : (Tour.cursor.map [.str "body"] (gapVisitor.run Tour.cursor) gapTour).1 =
      .done [none, some 1, none, some 2] := by rfl
  obtain ⟨⟨out, t, runs, hmap, heach, -, -, hcovers⟩, -⟩ :=
    elements_in_step Tour.cursor_lawful [.str "body"] (gapVisitor.run Tour.cursor) (s := gapTour) trivial
      (by rintro tip rest l ⟨rfl, rfl⟩ ⟨⟩; exact gapVisitor.keeps hlaw)
  rw [hmap] at hdone
  have hall := (hcovers.list rfl rfl).all hdone
  exact ⟨out, t, runs, hmap, heach, hall, hcovers⟩

end Bracketing
