import Bracketing.Proofs.Path.Step
import Bracketing.Report.Listing

/-!
# What a tour notes

A tour walks from a path and asks a query at every node it comes to. Since the query changes nothing, a tour is known
from the stacks that the walk visits and from the answers there:

- `Path.visits`: the stacks that a walk from the path visits, in order;
- `Tour.gather`: the end of a tour that comes to given stacks one after another, and the rows it notes;
- `Tour.run_eq`: a tour gathers what it visits, and leaves the objects and the path as they were;
- `Tour.report_of_ok`, `Tour.report_of_error`: so a report of its rows is the list of all answers, or the first stop
  among them;
- `Listing.exists_of_entryAt`: what an entry of the listing of parentheses, which is such a report, says.
-/

namespace Bracketing

open Bracketing.Tree Stack

variable {α : Type} {g : Grammar} {h : Heap} {p : Path} {st : List Value}

/-! ## The stacks visited -/

/-- Depth beyond what is enough lists no further stacks. -/
theorem preorder_eq_of_ample {nodes lists : Nat} (hb : Bounded nodes lists h) : ∀ {depth depth' : Nat}
    {st : List Value}, Ample nodes lists depth st → Ample nodes lists depth' st →
    preorder g h depth st = preorder g h depth' st
  | 0, _, _, ha, _ => ha.not_zero.elim
  | _ + 1, 0, _, _, ha => ha.not_zero.elim
  | depth + 1, depth' + 1, st, ha, ha' => by
    unfold preorder
    split
    · rename_i he
      congr 1
      apply List.flatMap_congr
      intro x hx
      exact preorder_eq_of_ample hb (ha.child hb he hx) (ha'.child hb he hx)
    · rfl

/-- The path with another stack. -/
def Path.withStack (p : Path) (st : List Value) : Path := { p with stack := st }

/-- The stacks at which a walk from the path visits a node, in order. -/
def Path.visits (p : Path) (h : Heap) : List (List Value) := Stack.preorder p.grammar h (h.extent + 1) p.stack

/-- A path that stands at its root has a tip. -/
theorem Path.stack_new_ne_nil (root : Value) (o : Path.Options) : (Path.new root o).stack ≠ [] := by
  simp [Path.new, Path.ofStack]

theorem Path.mem_visits_iff : st ∈ p.visits h ↔ Reached p.grammar h p.stack st ∧ endsInNode st = true :=
  mem_preorder_iff ⟨Nat.le_refl _, Nat.le_refl _⟩ (Ample.of_lt (Nat.lt_succ_self _) _)

theorem Path.nodup_visits (p : Path) (h : Heap) : (p.visits h).Nodup := nodup_preorder _ _

namespace Tour

variable {row : Path → Heap → Except Stop (Option α)} {t : Tour α} {v w : Visit (Tour α) Empty Unit}
  {xs ys sts : List (List Value)}

/-! ## Gathering rows -/

/-- How a tour that comes to the stacks one after another ends, and the rows it notes: it stops where a query does. -/
def gather (row : Path → Heap → Except Stop (Option α)) (h : Heap) (p : Path) :
    List (List Value) → Outcome Empty Unit × List α
  | [] => (.done (), [])
  | st :: rest =>
    match row (p.withStack st) h with
    | .ok r => ((gather row h p rest).1, r.toList ++ (gather row h p rest).2)
    | .error x => (.stopped x, [])

/-- The stack of the path is of no account. -/
theorem gather_push (name value : Value) : gather row h (p.push name value) sts = gather row h p sts := by
  induction sts with
  | nil => rfl
  | cons st rest ih =>
    unfold gather
    rw [ih]
    rfl

/-- Stacks that come first decide whether the others are come to. -/
theorem gather_append : gather row h p (xs ++ ys) =
    match gather row h p xs with
    | (.done _, rows) => ((gather row h p ys).1, rows ++ (gather row h p ys).2)
    | ended => ended := by
  induction xs with
  | nil => rfl
  | cons st rest ih =>
    rw [List.cons_append, gather, gather]
    cases row (p.withStack st) h with
    | error x => rfl
    | ok r =>
      simp only [ih]
      rcases gather row h p rest with ⟨out, rows⟩
      cases out <;> simp

/-- A tour whose queries are all answered comes to its end and notes all answers. -/
theorem gather_of_ok {f : List Value → Option α} (hf : ∀ st ∈ sts, row (p.withStack st) h = .ok (f st)) :
    gather row h p sts = (.done (), sts.filterMap f) := by
  induction sts with
  | nil => rfl
  | cons st rest ih =>
    obtain ⟨hst, hrest⟩ := List.forall_mem_cons.1 hf
    rw [gather, hst, ih hrest, List.filterMap_cons]
    cases f st <;> rfl

/-- The first query that stops ends the tour. -/
theorem gather_of_error {x : Stop} (hok : ∀ s ∈ xs, ∃ r, row (p.withStack s) h = .ok r)
    (hst : row (p.withStack st) h = .error x) : (gather row h p (xs ++ st :: ys)).1 = .stopped x := by
  induction xs with
  | nil => rw [List.nil_append, gather, hst]
  | cons s rest ih =>
    obtain ⟨⟨r, hr⟩, hrest⟩ := List.forall_mem_cons.1 hok
    rw [List.cons_append, gather, hr]
    exact ih hrest

/-- All questions are answered, or there is a first one that stops. -/
theorem all_ok_or_first_error {β : Type} (ask : List Value → Except Stop β) (sts : List (List Value)) :
    (∀ st ∈ sts, ∃ r, ask st = .ok r) ∨
      ∃ xs st ys x, sts = xs ++ st :: ys ∧ (∀ s ∈ xs, ∃ r, ask s = .ok r) ∧ ask st = .error x := by
  induction sts with
  | nil => exact .inl (by simp)
  | cons s rest ih =>
    cases hs : ask s with
    | error x => exact .inr ⟨[], s, rest, x, rfl, by simp, hs⟩
    | ok r =>
      rcases ih with hall | ⟨xs, st, ys, x, rfl, hok, hst⟩
      · exact .inl (List.forall_mem_cons.2 ⟨⟨r, hs⟩, hall⟩)
      · exact .inr ⟨s :: xs, st, ys, x, rfl, List.forall_mem_cons.2 ⟨⟨r, hs⟩, hok⟩, hst⟩

/-! ## Walking and gathering -/

/-- The tour with more rows. -/
def noting (t : Tour α) (rows : List α) : Tour α := { t with rows := t.rows ++ rows }

/-- From the tour, the visit does what coming to the stacks one after another does. -/
def Gathers (row : Path → Heap → Except Stop (Option α)) (v : Visit (Tour α) Empty Unit) (t : Tour α)
    (sts : List (List Value)) : Prop :=
  v t = ((gather row t.heap t.path sts).1, t.noting (gather row t.heap t.path sts).2)

theorem gathers_nil (hv : v t = (.done (), t)) : Gathers row v t [] := by
  simpa [Gathers, gather, noting] using hv

theorem Gathers.andThen (hv : Gathers row v t xs)
    (hw : ∀ t' : Tour α, t'.heap = t.heap → t'.path = t.path → Gathers row w t' ys) :
    Gathers row (v.andThen fun _ => w) t (xs ++ ys) := by
  unfold Gathers at hv ⊢
  rw [gather_append, Visit.andThen, hv]
  rcases hg : gather row t.heap t.path xs with ⟨out, rows⟩
  cases out with
  | done a =>
    have hthen : w (t.noting rows) = _ := hw (t.noting rows) rfl rfl
    simpa [noting] using hthen
  | failed e => rfl
  | stopped x => rfl

theorem Gathers.forEach_map {β γ : Type} {f : γ → Visit (Tour α) Empty Unit} {e : β → γ}
    {F : β → List (List Value)} : ∀ {as : List β} {t : Tour α},
      (∀ a ∈ as, ∀ t' : Tour α, t'.heap = t.heap → t'.path = t.path → Gathers row (f (e a)) t' (F a)) →
      Gathers row (Visit.forEach f (as.map e)) t (as.flatMap F)
  | [], _, _ => gathers_nil rfl
  | a :: as, t, hf => by
    show Gathers row ((f (e a)).andThen fun _ => Visit.forEach f (as.map e)) t (F a ++ as.flatMap F)
    apply Gathers.andThen (hf a List.mem_cons_self t rfl rfl)
    intro t' hheap hpath
    apply Gathers.forEach_map
    intro b hb t'' hheap' hpath'
    exact hf b (List.mem_cons_of_mem a hb) t'' (hheap'.trans hheap) (hpath'.trans hpath)

theorem Gathers.restoring (hv : Gathers row v t sts) : Gathers row (cursor.restoring v) t sts := by
  unfold Gathers at hv ⊢
  have hcut : t.path.cut t.path.length = t.path := Path.cut_atop t.path []
  unfold Cursor.restoring
  rw [hv]
  simp only [cursor, noting, hcut]

/-- What is gathered one member further down is gathered, and the path is taken back. -/
theorem Gathers.down {name value : Value} (hv : Gathers row v { t with path := t.path.push name value } sts) :
    Gathers row (cursor.restoring do cursor.push name value; v) t sts := by
  unfold Gathers at hv ⊢
  rw [gather_push] at hv
  have hpush : (do cursor.push name value; v : Visit (Tour α) Empty Unit) t =
      v { t with path := t.path.push name value } := rfl
  have hcut : (t.path.push name value).cut t.path.length = t.path := Path.cut_atop t.path [value, name]
  unfold Cursor.restoring
  rw [hpush, hv]
  simp only [cursor, noting, hcut]

/-- A query that is answered adds its row. -/
theorem note_of_ok {r : Option α} (hr : row t.path t.heap = .ok r) : note row t = (.done (), t.noting r.toList) := by
  unfold note
  rw [state_bind, hr, answer_ok_bind]
  cases r with
  | none => simp [noting, pure, Visit.give]
  | some a => rfl

theorem note_of_error {x : Stop} (hr : row t.path t.heap = .error x) : note row t = (.stopped x, t) := by
  unfold note
  rw [state_bind, hr]
  rfl

/-- Parts that are passed over add nothing. -/
theorem flatMap_filter_map {β : Type} (q : β → Bool) (place : β → List Value) (F : List Value → List (List Value))
    (as : List β) : (as.flatMap fun a => if q a then F (place a) else []) = ((as.filter q).map place).flatMap F := by
  induction as with
  | nil => rfl
  | cons a as ih =>
    rw [List.flatMap_cons, ih]
    cases hq : q a with
    | true => rw [List.filter_cons_of_pos hq, List.map_cons, List.flatMap_cons, if_pos rfl]
    | false => rw [List.filter_cons_of_neg (by simp [hq]), if_neg (by simp), List.nil_append]

section Children

variable {below : Visit (Tour α) Empty Unit} {F : List Value → List (List Value)} {tip : Value} {rest : List Value}

/-- One member further down from the tip, the visit gathers what the place of the member stands for. -/
def GathersBelow (row : Path → Heap → Except Stop (Option α)) (below : Visit (Tour α) Empty Unit) (h : Heap) (p : Path)
    (F : List Value → List (List Value)) (st : List Value) : Prop :=
  ∀ value name (t : Tour α), value :: name :: st ∈ children h st → t.heap = h → t.path = p →
    Gathers row below { t with path := t.path.push name value } (F (value :: name :: st))

theorem gathers_atField {n : NodeId} {key : String} (hs : t.path.stack = .node n :: rest)
    (hb : GathersBelow row below t.heap t.path F (.node n :: rest)) (hkey : key ∈ (t.heap.node n).fields.keys) :
    Gathers row (cursor.atField n below key) t
      (if Value.branches (t.heap.get n key) then F (atField t.heap (.node n :: rest) n key) else []) := by
  cases hbr : Value.branches (t.heap.get n key) with
  | false => exact gathers_nil (atField_pass (c := cursor) (s := t) hbr below)
  | true =>
    have hx : atField t.heap (.node n :: rest) n key ∈ children t.heap (.node n :: rest) :=
      List.mem_map_of_mem (List.mem_filter.2 ⟨hkey, hbr⟩)
    have hstep : cursor.atField n below key t =
        cursor.restoring (do cursor.push (.str key) (t.heap.get n key); below) t :=
      (atField_eq (c := cursor) (s := t) hbr below).trans (call_one cursor_lawful trivial hs (.str key) below)
    have hdown := hb (t.heap.get n key) (.str key) t hx rfl rfl
    unfold Gathers
    rw [hstep]
    exact hdown.down

/-- That the visit of an element gives no result makes no difference. -/
theorem restoring_unit (v : Visit (Tour α) Empty Unit) (t : Tour α) :
    (do let _ ← cursor.restoring (do return some (← v)) : Visit (Tour α) Empty Unit) t = cursor.restoring v t := by
  show (cursor.restoring (v.andThen fun a => pure (some a))).andThen (fun _ => pure ()) t = cursor.restoring v t
  unfold Visit.andThen Cursor.restoring
  dsimp only
  rcases v t with ⟨out, u⟩
  cases out <;> rfl

theorem gathers_atElement {l : ListId} {i : Nat} (hb : GathersBelow row below t.heap t.path F (.list l :: rest))
    (hi : i ∈ List.range (t.heap.list l).length) :
    Gathers row (do let _ ← cursor.atElement l below i) t
      (if elementAt t.heap l i ≠ .null then F (atIndex t.heap (.list l :: rest) l i) else []) := by
  by_cases hn : elementAt t.heap l i = .null
  · rw [if_neg (by simpa using hn)]
    exact gathers_nil (bind_done (atElement_pass hn below))
  · rw [if_pos hn]
    have hx : atIndex t.heap (.list l :: rest) l i ∈ children t.heap (.list l :: rest) :=
      List.mem_map_of_mem (List.mem_filter.2 ⟨hi, by simpa using hn⟩)
    have hstep : (do let _ ← cursor.atElement l below i : Visit (Tour α) Empty Unit) t =
        cursor.restoring (do cursor.push (.index i) (elementAt t.heap l i); below) t := by
      rw [← restoring_unit]
      show Visit.andThen _ _ t = Visit.andThen _ _ t
      rw [Visit.andThen, Visit.andThen, atElement_eq hn]
      rfl
    have hdown := hb (elementAt t.heap l i) (.index i) t hx rfl rfl
    unfold Gathers
    rw [hstep]
    exact hdown.down

/-- The fields of the tip give what is gathered at its children. -/
theorem gathers_fields (hs : t.path.stack = tip :: rest) (hn : endsInNode (tip :: rest) = true)
    (hb : GathersBelow row below t.heap t.path F (tip :: rest)) :
    Gathers row (do Visit.forEach (fun f => cursor.atField f.1 below f.2) (← cursor.fieldsOf tip)) t
      ((children t.heap (tip :: rest)).flatMap F) := by
  cases tip with
  | node n =>
    show Gathers row (Visit.forEach _ ((t.heap.node n).fields.keys.map (n, ·))) t _
    unfold children
    rw [← flatMap_filter_map]
    apply Gathers.forEach_map
    intro key hkey t' hheap hpath
    rw [← hheap] at hkey ⊢
    refine gathers_atField (by rw [hpath, hs]) ?_ hkey
    rw [hheap, hpath]
    exact hb
  | noNode => exact gathers_nil rfl
  | _ => cases hn

/-- The elements of the list at the tip give what is gathered at its children. -/
theorem gathers_elements {l : ListId} (hs : t.path.stack = .list l :: rest)
    (hb : GathersBelow row below t.heap t.path F (.list l :: rest)) :
    Gathers row (cursor.each [] below) t ((children t.heap (.list l :: rest)).flatMap F) := by
  have hall : Gathers row (Visit.forEach (fun i => do let _ ← cursor.atElement l below i)
      (List.range (t.heap.list l).length)) t ((children t.heap (.list l :: rest)).flatMap F) := by
    unfold children
    rw [← flatMap_filter_map]
    nth_rewrite 1 [← List.map_id (List.range (t.heap.list l).length)]
    apply Gathers.forEach_map
    intro i hi t' hheap hpath
    rw [← hheap] at hi ⊢
    simp only [decide_eq_true_eq]
    refine gathers_atElement ?_ hi
    rw [hheap, hpath]
    exact hb
  unfold Gathers
  rw [each_nil cursor_lawful trivial hs below]
  exact hall.restoring

/-- A node that is entered gives its own row, and then what is gathered at its children. -/
theorem gathers_enter (hs : t.path.stack = tip :: rest) (hn : endsInNode (tip :: rest) = true)
    (hb : GathersBelow row below t.heap t.path F (tip :: rest)) :
    Gathers row (cursor.enter (note row) below tip) t
      ([tip :: rest] ++ (children t.heap (tip :: rest)).flatMap F) := by
  unfold Gathers
  rw [List.singleton_append, gather, Path.withStack, ← hs]
  cases hr : row t.path t.heap with
  | error x =>
    have hskip : (note row).unlessSkipped t = (.stopped x, t) := by rw [Visit.unlessSkipped, note_of_error hr]
    have henter : cursor.enter (note row) below tip t = (.stopped x, t) := bind_stopped hskip
    simp [henter, noting]
  | ok r =>
    have hskip : (note row).unlessSkipped t = (.done true, t.noting r.toList) := by
      rw [Visit.unlessSkipped, note_of_ok hr]
    have hfields : Gathers row _ (t.noting r.toList) _ := gathers_fields hs hn hb
    have henter : cursor.enter (note row) below tip t = _ := (bind_done hskip).trans hfields
    rw [henter, hs]
    simp [noting]

end Children

/-! ## Tours -/

/-- A walk that is deep enough gathers what is listed for its stack. -/
theorem gathers_walkWithin {nodes lists : Nat} : ∀ {depth : Nat} {t : Tour α}, Bounded nodes lists t.heap →
    t.path.stack ≠ [] → Ample nodes lists depth t.path.stack →
    Gathers row (cursor.walkWithin (note row) depth) t (preorder t.path.grammar t.heap depth t.path.stack)
  | 0, _, _, _, ha => ha.not_zero.elim
  | depth + 1, t, hb, hne, ha => by
    obtain ⟨tip, rest, hs⟩ := List.exists_cons_of_ne_nil hne
    unfold preorder
    cases he : enters t.path.grammar t.heap t.path.stack with
    | false => exact gathers_nil (walkWithin_pass hs he)
    | true =>
      have hbelow : GathersBelow row (cursor.walkWithin (note row) depth) t.heap t.path
          (preorder t.path.grammar t.heap depth) (tip :: rest) := by
        intro value name t' hx hheap hpath
        obtain ⟨heap, path, rows⟩ := t'
        subst hheap hpath
        have hstack : (t.path.push name value).stack = value :: name :: tip :: rest := by
          simp only [Path.push, hs]
        have hample : Ample nodes lists depth (t.path.push name value).stack := by
          rw [← hs] at hx
          rw [hstack, ← hs]
          exact ha.child hb he hx
        have hwalk := gathers_walkWithin (t := { t with path := t.path.push name value, rows := rows })
          hb (by simp [Path.push]) hample
        rwa [hstack] at hwalk
      rw [hs] at he ⊢
      rw [if_pos rfl]
      rcases endsInNode_or_list he with hn | ⟨l, rfl⟩
      · rw [hn, if_pos rfl]
        unfold Gathers
        rw [walkWithin_node hs (hs ▸ he) hn]
        exact gathers_enter hs hn hbelow
      · unfold Gathers
        rw [walkWithin_list hs (hs ▸ he)]
        exact gathers_elements hs hbelow

/-- A tour from a path with a tip gathers what it visits, and leaves the objects and the path as they were. -/
theorem run_eq (hs : p.stack ≠ []) : run h p row =
    ((gather row h p (p.visits h)).1, { heap := h, path := p, rows := (gather row h p (p.visits h)).2 }) := by
  have hb : Bounded h.nodes.size h.lists.size h := ⟨Nat.le_refl _, Nat.le_refl _⟩
  have hwalk : Gathers row _ { heap := h, path := p } _ :=
    gathers_walkWithin hb hs (Ample.of_lt (Nat.lt_succ_self h.extent) _)
  unfold run
  rw [walk_eq]
  exact hwalk

/-- A report where every query is answered holds all answers. -/
theorem report_of_ok (hs : p.stack ≠ []) {f : List Value → Option α}
    (hf : ∀ st ∈ p.visits h, row (p.withStack st) h = .ok (f st)) :
    report h p row = .ok ((p.visits h).filterMap f) := by
  rw [report, run_eq hs, gather_of_ok hf]
  rfl

/-- A report stops with the first query that does. -/
theorem report_of_error (hs : p.stack ≠ []) {x : Stop} (hv : p.visits h = xs ++ st :: ys)
    (hok : ∀ s ∈ xs, ∃ r, row (p.withStack s) h = .ok r) (hst : row (p.withStack st) h = .error x) :
    report h p row = .error x := by
  rw [report, run_eq hs, hv, gather_of_error hok hst]
  rfl

/-- Every query of a report that gives rows is answered. -/
theorem exists_of_report (hs : p.stack ≠ []) {rows : List α} (hr : report h p row = .ok rows) :
    ∃ f, (∀ st ∈ p.visits h, row (p.withStack st) h = .ok (f st)) ∧ rows = (p.visits h).filterMap f := by
  rcases all_ok_or_first_error (fun st => row (p.withStack st) h) (p.visits h) with hall | ⟨xs, st, ys, x, hv, hok, hst⟩
  · choose! f hf using hall
    rw [report_of_ok hs hf] at hr
    exact ⟨f, hf, (Except.ok.inj hr).symm⟩
  · rw [report_of_error hs hv hok hst] at hr
    cases hr

/-- A report that stops does so at the first query that does. -/
theorem exists_of_report_error (hs : p.stack ≠ []) {x : Stop} (hr : report h p row = .error x) :
    ∃ xs st ys, p.visits h = xs ++ st :: ys ∧ (∀ s ∈ xs, ∃ r, row (p.withStack s) h = .ok r) ∧
      row (p.withStack st) h = .error x := by
  rcases all_ok_or_first_error (fun st => row (p.withStack st) h) (p.visits h) with hall | ⟨xs, st, ys, y, hv, hok, hst⟩
  · choose! f hf using hall
    rw [report_of_ok hs hf] at hr
    cases hr
  · rw [report_of_error hs hv hok hst] at hr
    cases hr
    exact ⟨xs, st, ys, hv, hok, hst⟩

end Tour

namespace Listing

/-- The entry of the current node, from the verdict on it and what stands before it in the source. -/
def entry (p : Path) (h : Heap) (parens source : Bool) : Entry where
  accessor := Path.accessor p.names
  tag := ((p.node h).map fun n => (h.node n).tag).getD ""
  parent := ((p.parent h).map fun n => (h.node n).tag).getD ""
  start := h.startText (p.node h)
  parens := parens
  source := source

theorem entryAt_eq (all e : Bool) (p : Path) (h : Heap) : entryAt all e p h =
    p.decide h false >>= fun first => (if e then p.decide h true else .ok first) >>= fun verdict =>
      if !verdict.parens && !all then .ok none
      else p.hasParens h >>= fun source => .ok (some (entry p h verdict.parens source)) := by
  cases e <;> rfl

/-- What a query for an entry has found when it gives an answer. -/
theorem exists_of_entryAt {all e : Bool} {r : Option Entry} (hr : entryAt all e p h = .ok r) :
    ∃ first verdict, p.decide h false = .ok first ∧ (if e then p.decide h true else .ok first) = .ok verdict ∧
      ((verdict.parens = false ∧ all = false ∧ r = none) ∨
        ∃ source, (verdict.parens = true ∨ all = true) ∧ p.hasParens h = .ok source ∧
          r = some (entry p h verdict.parens source)) := by
  rw [entryAt_eq] at hr
  cases hfirst : p.decide h false with
  | error x => rw [hfirst] at hr; cases hr
  | ok first =>
    rw [hfirst] at hr
    refine ⟨first, ?_⟩
    cases hverdict : (if e then p.decide h true else .ok first) with
    | error x =>
      simp only [bind, Except.bind, hverdict] at hr
      cases hr
    | ok verdict =>
      simp only [bind, Except.bind, hverdict] at hr
      refine ⟨verdict, rfl, rfl, ?_⟩
      split at hr
      · rename_i hskip
        simp only [Bool.and_eq_true, Bool.not_eq_true'] at hskip
        exact .inl ⟨hskip.1, hskip.2, (Except.ok.inj hr).symm⟩
      · rename_i hshow
        right
        cases hsource : p.hasParens h with
        | error x => rw [hsource] at hr; cases hr
        | ok source =>
          rw [hsource] at hr
          refine ⟨source, ?_, rfl, (Except.ok.inj hr).symm⟩
          cases hv : verdict.parens <;> simp_all

end Listing

end Bracketing
