import Bracketing.Proofs.Path.Enumerate
import Bracketing.Proofs.Path.Restore

/-!
# Steps of a traversal

What the parts of a traversal do from a given state, as equations, so that no proof about traversals opens them again:

- going down through names (`descend_eq`, `descend_empty`);
- one field (`atField_eq`) and one element (`atElement_eq`), unless they are passed over;
- one value of a walk: none (`walkWithin_empty`), passed over (`walkWithin_pass`), a node (`walkWithin_node`) or a list
  (`walkWithin_list`).
-/

namespace Bracketing

open Bracketing.Tree Stack

variable {σ ε α β : Type} {c : Cursor σ} {I : σ → Prop}

/-- A cursor is lawful where the objects have a property besides. -/
theorem Cursor.Lawful.and_heap (hc : c.Lawful I) (P : Heap → Prop) : c.Lawful fun s => I s ∧ P (c.heap s) where
  path_setPath s p hs := hc.path_setPath s p hs.1
  heap_setPath := hc.heap_setPath
  setPath_path := hc.setPath_path
  setPath_setPath := hc.setPath_setPath
  valid_setPath s p hs := ⟨hc.valid_setPath s p hs.1, by rw [hc.heap_setPath]; exact hs.2⟩

/-! ## Sequencing -/

theorem bind_done {v : Visit σ ε α} {f : α → Visit σ ε β} {s t : σ} {a : α} (hv : v s = (.done a, t)) :
    (v >>= f) s = f a t := by
  show v.andThen f s = _
  rw [Visit.andThen, hv]

theorem bind_failed {v : Visit σ ε α} {f : α → Visit σ ε β} {s t : σ} {e : Failure ε} (hv : v s = (.failed e, t)) :
    (v >>= f) s = (.failed e, t) := by
  show v.andThen f s = _
  rw [Visit.andThen, hv]

theorem bind_stopped {v : Visit σ ε α} {f : α → Visit σ ε β} {s t : σ} {x : Stop} (hv : v s = (.stopped x, t)) :
    (v >>= f) s = (.stopped x, t) := by
  show v.andThen f s = _
  rw [Visit.andThen, hv]

theorem state_bind (f : σ → Visit σ ε β) (s : σ) : (Visit.state >>= f) s = f s s := rfl

theorem answer_ok_bind (a : α) (f : α → Visit σ ε β) (s : σ) : (Visit.answer (.ok a) >>= f) s = f a s := rfl

/-! ## Going down -/

/-- The path after going down from a value through names. -/
def Path.descended (h : Heap) : Path → Value → List Value → Path
  | p, _, [] => p
  | p, v, name :: names => descended h (p.push name (resolve h v name)) (resolve h v name) names

/-- The value that names lead to. -/
def Path.reached (h : Heap) : Value → List Value → Value
  | v, [] => v
  | v, name :: names => reached h (resolve h v name) names

theorem descendFrom_eq (hc : c.Lawful I) : ∀ (names : List Value) (v : Value) (s : σ), I s →
    (c.descendFrom v names : Visit σ ε Value) s =
      (.done (Path.reached (c.heap s) v names), c.setPath s (Path.descended (c.heap s) (c.path s) v names))
  | [], v, s, _ => by
    show (Outcome.done v, s) = _
    rw [Path.descended, hc.setPath_path, Path.reached]
  | name :: names, v, s, hs => by
    have ih := descendFrom_eq hc names (Path.resolve (c.heap s) v name)
      (c.setPath s ((c.path s).push name (Path.resolve (c.heap s) v name))) (hc.valid_setPath _ _ hs)
    rw [hc.heap_setPath, hc.path_setPath _ _ hs, hc.setPath_setPath] at ih
    exact ih

/-- Going down from a path that has a tip comes to what the names lead to. -/
theorem descend_eq (hc : c.Lawful I) {v : Value} {rest : List Value} {s : σ} (hI : I s)
    (hs : (c.path s).stack = v :: rest) (names : List Value) : (c.descend names : Visit σ ε Value) s =
      (.done (Path.reached (c.heap s) v names), c.setPath s (Path.descended (c.heap s) (c.path s) v names)) := by
  rw [← descendFrom_eq hc names v s hI]
  unfold Cursor.descend
  rw [state_bind, hs]

theorem descend_empty {s : σ} (hs : (c.path s).stack = []) (names : List Value) :
    (c.descend names : Visit σ ε Value) s = (.stopped .missing, s) := by
  unfold Cursor.descend
  rw [state_bind, hs]
  rfl

/-! ## Members -/

theorem restoring_congr {v w : Visit σ ε α} {s : σ} (hv : v s = w s) : c.restoring v s = c.restoring w s := by
  simp only [Cursor.restoring, hv]

/-- One name down. -/
theorem call_one (hc : c.Lawful I) {tip : Value} {rest : List Value} {s : σ} (hI : I s)
    (hs : (c.path s).stack = tip :: rest) (name : Value) (v : Visit σ ε α) : c.call [name] v s = c.restoring (do
      c.push name (Path.resolve (c.heap s) tip name)
      v) s :=
  restoring_congr (bind_done (descend_eq hc hI hs [name]))

/-- The elements of the list at the tip. -/
theorem each_nil (hc : c.Lawful I) {l : ListId} {rest : List Value} {s : σ} (hI : I s)
    (hs : (c.path s).stack = .list l :: rest) (v : Visit σ ε Unit) : c.each [] v s = c.restoring
      (Visit.forEach (fun i => do let _ ← c.atElement l v i) (List.range ((c.heap s).list l).length)) s := by
  refine restoring_congr ((bind_done (a := l) (t := s) ?_).trans rfl)
  refine (bind_done (descend_eq hc hI hs [])).trans ?_
  rw [Path.descended, hc.setPath_path]
  rfl

/-- A field that is not made for nodes is passed over. -/
theorem atField_pass {n : NodeId} {key : String} {s : σ} (hb : Value.branches ((c.heap s).get n key) = false)
    (below : Visit σ ε Unit) : c.atField n below key s = (.done (), s) := by
  unfold Cursor.atField
  rw [state_bind]
  cases hv : (c.heap s).get n key <;> simp [hv, Value.branches] at hb <;> rfl

theorem atField_eq {n : NodeId} {key : String} {s : σ} (hb : Value.branches ((c.heap s).get n key) = true)
    (below : Visit σ ε Unit) : c.atField n below key s = c.call [.str key] below s := by
  unfold Cursor.atField
  rw [state_bind]
  cases hv : (c.heap s).get n key <;> simp [hv, Value.branches] at hb <;> rfl

/-- A hole is passed over. -/
theorem atElement_pass {l : ListId} {i : Nat} {s : σ} (hn : elementAt (c.heap s) l i = .null) (v : Visit σ ε α) :
    c.atElement l v i s = (.done none, s) := by
  unfold Cursor.atElement
  unfold elementAt at hn
  rw [state_bind, hn]
  rfl

theorem atElement_eq {l : ListId} {i : Nat} {s : σ} (hn : elementAt (c.heap s) l i ≠ .null) (v : Visit σ ε α) :
    c.atElement l v i s = c.restoring (do
      c.push (.index i) (elementAt (c.heap s) l i)
      return some (← v)) s := by
  unfold Cursor.atElement
  unfold elementAt at hn ⊢
  rw [state_bind]
  generalize (((c.heap s).list l)[i]?).getD .null = e at hn ⊢
  cases e <;> first | exact absurd rfl hn | rfl

/-! ## A value of a walk -/

section Walk

variable {v : Visit σ ε Unit} {depth : Nat} {s : σ} {tip : Value} {rest : List Value}

theorem value_eq (hs : (c.path s).stack = tip :: rest) : (c.path s).value = .ok tip := by
  simp [Path.value, hs]

theorem isDuplicate_eq {earlier : List Value} (hv : Stack.values (c.path s).stack = tip :: earlier) :
    (c.path s).isDuplicate (c.heap s) = .ok (earlier.any ((c.heap s).same · tip)) := by
  simp [Path.isDuplicate, Path.values, hv]

theorem walk_eq (v : Visit σ ε Unit) (s : σ) :
    c.walk v s = c.walkWithin v ((c.heap s).extent + c.reserve + 1) s := by
  rw [Nat.add_right_comm]
  rfl

theorem walkWithin_empty (hs : (c.path s).stack = []) :
    c.walkWithin v (depth + 1) s = (.stopped (.broken .noRoot), s) := by
  unfold Cursor.walkWithin
  rw [state_bind]
  have hv : (c.path s).value = .error (.broken .noRoot) := by simp [Path.value, hs]
  rw [hv]
  rfl

theorem walkWithin_pass (hs : (c.path s).stack = tip :: rest)
    (he : enters (c.path s).grammar (c.heap s) (c.path s).stack = false) :
    c.walkWithin v (depth + 1) s = (.done (), s) := by
  obtain ⟨earlier, hv⟩ := values_cons tip rest
  rw [← hs] at hv
  unfold enters at he
  unfold Cursor.walkWithin
  rw [state_bind, value_eq hs, answer_ok_bind, isDuplicate_eq hv, answer_ok_bind]
  rw [hv] at he
  cases tip with
  | node n =>
    simp only [he]
    rfl
  | noNode =>
    simp only [he]
    rfl
  | list l =>
    simp only [he]
    rfl
  | _ => rfl

theorem walkWithin_node (hs : (c.path s).stack = tip :: rest)
    (he : enters (c.path s).grammar (c.heap s) (c.path s).stack = true) (hn : endsInNode (tip :: rest) = true) :
    c.walkWithin v (depth + 1) s = c.enter v (c.walkWithin v depth) tip s := by
  obtain ⟨earlier, hv⟩ := values_cons tip rest
  rw [← hs] at hv
  unfold enters at he
  conv_lhs => unfold Cursor.walkWithin
  rw [state_bind, value_eq hs, answer_ok_bind, isDuplicate_eq hv, answer_ok_bind]
  rw [hv] at he
  cases tip with
  | node n =>
    simp only [he]
    rfl
  | noNode =>
    simp only [he]
    rfl
  | _ => cases hn

theorem walkWithin_list {l : ListId} (hs : (c.path s).stack = .list l :: rest)
    (he : enters (c.path s).grammar (c.heap s) (c.path s).stack = true) :
    c.walkWithin v (depth + 1) s = c.each [] (c.walkWithin v depth) s := by
  obtain ⟨earlier, hv⟩ := values_cons (.list l) rest
  rw [← hs] at hv
  unfold enters at he
  conv_lhs => unfold Cursor.walkWithin
  rw [state_bind, value_eq hs, answer_ok_bind, isDuplicate_eq hv, answer_ok_bind]
  rw [hv] at he
  simp only [he]
  rfl

end Walk

end Bracketing
