import Bracketing.Command.Run
import Bracketing.Proofs.Path.Inspection
import Bracketing.Proofs.Verdict.Endless
import Bracketing.Proofs.Verdict.Unbroken

/-!
# The listing of parentheses

A listing of parentheses has a row for every node of a tree, or only for those that need parentheses, and tells them
either for callers that may begin a statement with the node or for callers that know better.

- `heads_visits`: a walk over a plain tree visits its nodes in preorder;
- `decide_inExpression`: a caller that knows better is told to leave parentheses away only at nodes that may not lead;
- `parens_of_answers`, `parens_of_error`: the rows of a listing whose decisions are all answered, and what it says when
  one is not;
- `parens_complete`: both for the tree of every document, and for the command that prints it.
-/

namespace Bracketing

open Bracketing.Tree Stack

variable {h : Heap} {p : Path} {s : Site} {root : NodeId}

/-! ## The nodes of a walk -/

/-- Parts that are all done are done in turn. -/
theorem inTurn_flatMap {ε α ρ : Type} {law : α → Outcome ε Unit → List ρ → Prop} {F : α → List ρ} : ∀ {as : List α},
    (∀ a ∈ as, law a (.done ()) (F a)) → InTurn law as (.done ()) (as.flatMap F)
  | [], _ => .nil
  | a :: _, ha => .cons (ha a List.mem_cons_self) (inTurn_flatMap fun b hb => ha b (List.mem_cons_of_mem a hb))

/-- A walk whose visitor is always done runs it at all stacks that are listed. -/
theorem course_preorder {g : Grammar} {nodes lists : Nat} (hb : Bounded nodes lists h)
    {answers : List Value → Outcome Empty Unit → Prop} (ha : ∀ st, answers st (.done ())) :
    ∀ {depth : Nat} {st : List Value}, Ample nodes lists depth st →
      Course answers g h depth st (.done ()) ((preorder g h depth st).map fun st => ⟨st, .done ()⟩)
  | 0, _, hd => hd.not_zero.elim
  | depth + 1, st, hd => by
    unfold preorder
    cases he : enters g h st with
    | false => exact (course_pass he).2 ⟨rfl, rfl⟩
    | true =>
      have hbelow : InTurn (Course answers g h depth) (children h st) (.done ())
          ((children h st).flatMap fun x => (preorder g h depth x).map fun st => ⟨st, .done ()⟩) :=
        inTurn_flatMap fun x hx => course_preorder hb ha (hd.child hb he hx)
      cases hn : endsInNode st with
      | true =>
        apply (course_node he hn).2
        refine ⟨.done (), ha st, ?_⟩
        rw [if_pos rfl, if_pos rfl, List.singleton_append, List.map_cons, List.map_flatMap]
        exact .done hbelow
      | false =>
        rw [if_pos rfl, if_neg (by simp), List.nil_append, List.map_flatMap]
        simpa [Course, he, hn] using hbelow

/-- A walk over a plain tree visits its nodes in preorder. -/
theorem heads_visits {v : Value} (hp : h.Plain v) : ∃ nodes, h.preorder v = some nodes ∧
    ((Path.new v).visits h).map List.head? = nodes.map fun n => some (.node n) := by
  have hdone : ∀ st, HeedsAt (ε := Empty) h (fun _ => true) st (.done ()) := by
    intro st n _ _
    exact ⟨(), rfl⟩
  have hs : h.Shallow (h.extent + 1) v := hp.acyclic.shallow (Nat.lt_succ_self _)
  have hcourse := course_preorder (g := .standard) ⟨Nat.le_refl _, Nat.le_refl _⟩ hdone
    (Ample.of_lt (Nat.lt_succ_self (h.nodes.size + h.lists.size)) [v])
  obtain ⟨-, nodes, hl, hr⟩ := hcourse.notes hp hs hs (by simp [Fresh, Stack.values])
  refine ⟨nodes, hl.preorderWhere_eq, ?_⟩
  unfold RunsAt at hr
  rw [List.map_map] at hr
  exact hr

/-! ## The two kinds of callers -/

/-- The verdicts agree, or the second one drops parentheses that keep a node from leading. -/
def Milder (h : Heap) (n : NodeId) (v w : Verdict) : Prop := w = v ∨ w.parens = false ∧ mayLead h (some n) = false

theorem decideByPlace_inExpression {v : Verdict} (hv : p.decideByPlace false s = .ok v) :
    ∃ w, p.decideByPlace true s = .ok w ∧ Milder s.heap s.node v w := by
  unfold Path.decideByPlace at hv ⊢
  split at hv
  · rename_i hc
    rw [if_pos hc]
    exact ⟨v, hv, .inl rfl⟩
  · rename_i hc
    rw [if_neg hc, if_neg (by simp)]
    split at hv
    · rename_i hm
      exact ⟨_, rfl, .inr ⟨rfl, by simpa using hm⟩⟩
    · exact ⟨v, hv, .inl rfl⟩

/-- A rule that is tried first, and does not ask for the kind of caller, changes nothing. -/
theorem exists_milder_ite {c : Prop} [Decidable c] {n : NodeId} {a x y : Except Stop Verdict} {v : Verdict}
    (hv : (if c then a else x) = .ok v) (hxy : x = .ok v → ∃ w, y = .ok w ∧ Milder h n v w) :
    ∃ w, (if c then a else y) = .ok w ∧ Milder h n v w := by
  by_cases hc : c
  · rw [if_pos hc] at hv ⊢
    exact ⟨v, hv, .inl rfl⟩
  · rw [if_neg hc] at hv ⊢
    exact hxy hv

theorem decideUnder_inExpression {v : Verdict} (hv : p.decideUnder false s = .ok v) :
    ∃ w, p.decideUnder true s = .ok w ∧ Milder s.heap s.node v w := by
  unfold Path.decideUnder at hv ⊢
  apply exists_milder_ite hv
  intro hv
  apply exists_milder_ite hv
  intro hv
  apply exists_milder_ite hv
  intro hv
  apply exists_milder_ite hv
  intro hv
  cases hk : s.byKind (p.parent s.heap 1) with
  | error x => rw [hk] at hv; cases hv
  | ok r =>
    rw [hk] at hv
    cases r with
    | some parens => exact ⟨v, hv, .inl rfl⟩
    | none => exact decideByPlace_inExpression hv

/-- Where a caller that may begin a statement gets a verdict, one that knows better gets the same, unless the node may
not lead. -/
theorem decide_inExpression {v : Verdict} (hv : p.decide h false = .ok v) :
    ∃ w, p.decide h true = .ok w ∧
      (w = v ∨ w.parens = false ∧ ∃ n, p.stack.head? = some (.node n) ∧ mayLead h (some n) = false) := by
  obtain hnil | ⟨n, rest, hs, hn⟩ | hnone := p.decide_cases h
  · rw [Path.decide_nil hnil] at hv
    cases hv
  · have hmild : ∃ w, p.decide h true = .ok w ∧ Milder h n v w := by
      rw [Path.decide_node hs hn] at hv ⊢
      apply exists_milder_ite hv
      intro hv
      cases hq : p.parent h with
      | none =>
        rw [hq] at hv
        exact ⟨v, hv, .inl rfl⟩
      | some q =>
        rw [hq] at hv
        exact decideUnder_inExpression hv
    obtain ⟨w, hw, hm⟩ := hmild
    exact ⟨w, hw, hm.imp_right fun hm => ⟨hm.1, n, by simp [hs], hm.2⟩⟩
  · rw [hnone] at hv
    exact ⟨v, (hnone true).trans hv, .inl rfl⟩

/-- The nodes that may not lead. -/
theorem mayLead_eq_false_iff {n : NodeId} : mayLead h (some n) = false ↔
    h.kind (some n) = .objectExpression ∨ h.kind (some n) = .functionExpression ∨
      h.kind (some n) = .classExpression ∨ isLetBracket h n = true := by
  unfold mayLead
  dsimp only
  split <;> simp_all

/-! ## The rows of a listing -/

theorem Reached.getLast_values {g : Grammar} {v : Value} {x : List Value} (hx : Reached g h [v] x) :
    (Stack.values x).getLast? = some v := by
  induction hx with
  | start => rfl
  | @child st x _ hx _ ih =>
    obtain ⟨value, name, rfl⟩ := exists_of_mem_children hx
    show (value :: Stack.values st).getLast? = some v
    rw [List.getLast?_cons, ih]
    rfl

/-- Below a node it is known what stands before the tip in the source. -/
theorem exists_hasParens (hr : (Stack.values p.stack).getLast? = some (.node root)) : ∃ b, p.hasParens h = .ok b := by
  have hroot : p.rootValue = .ok (.node root) := by
    rw [Path.rootValue_eq, Path.values, hr]
    rfl
  have hlocation : ∃ l, p.rootLocation h = .ok l := by
    unfold Path.rootLocation
    rw [hroot]
    cases hn : p.grammar.isNode h (.node root) <;>
      exact ⟨_, by simp [Grammar.asNode, hn, bind, Except.bind, pure, Except.pure]; rfl⟩
  have htoken : ∃ t, p.previousToken h = .ok t := by
    obtain ⟨l, hl⟩ := hlocation
    unfold Path.previousToken Path.tokenWithin
    simp only [hl, bind, Except.bind]
    repeat' split
    all_goals exact ⟨_, rfl⟩
  obtain ⟨t, ht⟩ := htoken
  unfold Path.hasParens
  rw [ht]
  exact ⟨_, rfl⟩

/-- What both kinds of callers are told at the stacks of a walk, and what stands before them in the source. -/
structure Answers (h : Heap) (p : Path) (verdict : Bool → List Value → Verdict) (source : List Value → Bool) : Prop where
  decide : ∀ e, ∀ st ∈ p.visits h, (p.withStack st).decide h e = .ok (verdict e st)
  hasParens : ∀ st ∈ p.visits h, (p.withStack st).hasParens h = .ok (source st)

namespace Listing

/-- One entry for each stack of a walk. -/
def rows (h : Heap) (p : Path) (verdict : List Value → Verdict) (source : List Value → Bool) : List Entry :=
  (p.visits h).map fun st => entry (p.withStack st) h (verdict st).parens (source st)

theorem entryAt_of_ok {all e source : Bool} {first verdict : Verdict} (hfirst : p.decide h false = .ok first)
    (hverdict : (if e then p.decide h true else .ok first) = .ok verdict) (hsource : p.hasParens h = .ok source) :
    entryAt all e p h = .ok (if verdict.parens || all then some (entry p h verdict.parens source) else none) := by
  rw [entryAt_eq, hfirst]
  simp only [bind, Except.bind, hverdict, hsource]
  cases verdict.parens <;> cases all <;> rfl

/-- Rows that are asked for are those that need parentheses, or all. -/
theorem filterMap_entries (sts : List (List Value)) (f : List Value → Entry) (all : Bool) :
    (sts.filterMap fun st => if (f st).parens || all then some (f st) else none) =
      (sts.map f).filter fun r => r.parens || all := by
  induction sts with
  | nil => rfl
  | cons st sts ih =>
    rw [List.map_cons, List.filter_cons, List.filterMap_cons, ih]
    cases (f st).parens || all <;> rfl

end Listing

variable {verdict : Bool → List Value → Verdict} {source : List Value → Bool}

/-- The listing of a tree whose decisions are all answered: one row for each stack visited, or those that need
parentheses. -/
theorem parens_of_answers (ha : Answers h (.new (.node root)) verdict source) (all e : Bool) :
    Listing.parens h root all e =
      .ok ((Listing.rows h (.new (.node root)) (verdict e) source).filter fun r => r.parens || all) := by
  have hs := Path.stack_new_ne_nil (.node root) {}
  unfold Listing.parens Listing.rows
  rw [← Listing.filterMap_entries]
  apply Tour.report_of_ok hs
  intro st hst
  refine Listing.entryAt_of_ok (ha.decide false st hst) ?_ (ha.hasParens st hst)
  cases e with
  | false => rfl
  | true => exact ha.decide true st hst

/-- A listing stops with the first decision that does, whatever is asked for. -/
theorem parens_of_error {x : Stop} {before after : List (List Value)} {st : List Value}
    (hv : (Path.new (.node root)).visits h = before ++ st :: after)
    (hok : ∀ y ∈ before, ∃ v, ((Path.new (.node root)).withStack y).decide h false = .ok v)
    (hst : ((Path.new (.node root)).withStack st).decide h false = .error x) (all e : Bool) :
    Listing.parens h root all e = .error x := by
  have hs := Path.stack_new_ne_nil (.node root) {}
  apply Tour.report_of_error hs hv
  · intro y hy
    obtain ⟨v, hfirst⟩ := hok y hy
    obtain ⟨w, hw, -⟩ := decide_inExpression hfirst
    have hy : y ∈ (Path.new (.node root)).visits h := by
      rw [hv]
      exact List.mem_append_left _ hy
    obtain ⟨b, hb⟩ := exists_hasParens (h := h) (p := (Path.new (.node root)).withStack y)
      (Path.mem_visits_iff.1 hy).1.getLast_values
    have hverdict : (if e then ((Path.new (.node root)).withStack y).decide h true else .ok v) =
        .ok (if e then w else v) := by
      cases e with
      | false => rfl
      | true => exact hw
    exact ⟨_, Listing.entryAt_of_ok hfirst hverdict hb⟩
  · rw [Listing.entryAt_eq, hst]
    rfl

/-- If no decision of a walk from a node stops, all questions of a listing are answered. -/
theorem exists_answers (hok : ∀ st ∈ (Path.new (.node root)).visits h,
      ∃ v, ((Path.new (.node root)).withStack st).decide h false = .ok v) :
    ∃ verdict source, Answers h (.new (.node root)) verdict source := by
  have hdecide : ∀ e, ∀ st ∈ (Path.new (.node root)).visits h,
      ∃ v, ((Path.new (.node root)).withStack st).decide h e = .ok v := by
    intro e st hst
    obtain ⟨v, hv⟩ := hok st hst
    cases e with
    | false => exact ⟨v, hv⟩
    | true =>
      obtain ⟨w, hw, -⟩ := decide_inExpression hv
      exact ⟨w, hw⟩
  have hparens : ∀ st ∈ (Path.new (.node root)).visits h,
      ∃ b, ((Path.new (.node root)).withStack st).hasParens h = .ok b := by
    intro st hst
    exact exists_hasParens (Path.mem_visits_iff.1 hst).1.getLast_values
  have : Nonempty Verdict := ⟨⟨false, .default⟩⟩
  choose! verdict hverdict using hdecide
  choose! source hsource using hparens
  exact ⟨verdict, source, hverdict, hsource⟩

/-- Whoever knows better is told of parentheses only where others are; what is dropped are nodes that may not lead. -/
theorem Answers.inExpression (ha : Answers h p verdict source) {st : List Value} (hst : st ∈ p.visits h) :
    ((verdict true st).parens = true → (verdict false st).parens = true) ∧
    ((verdict false st).parens = true → (verdict true st).parens = false →
      ∃ n, st.head? = some (.node n) ∧ (h.kind (some n) = .objectExpression ∨ h.kind (some n) = .functionExpression ∨
        h.kind (some n) = .classExpression ∨ isLetBracket h n = true)) := by
  obtain ⟨w, hw, hmild⟩ := decide_inExpression (ha.decide false st hst)
  have hsame : w = verdict true st := Except.ok.inj (hw.symm.trans (ha.decide true st hst))
  subst hsame
  rcases hmild with heq | ⟨hno, n, hn, hlead⟩
  · rw [heq]
    exact ⟨id, fun hyes hno => absurd (hyes.symm.trans hno) (by simp)⟩
  · exact ⟨fun hyes => absurd (hyes.symm.trans hno) (by simp), fun _ _ => ⟨n, hn, mayLead_eq_false_iff.1 hlead⟩⟩

/-- A row tells the tag of the node at the tip of its stack. -/
theorem tags_rows {nodes : List NodeId} {told : List Value → Verdict}
    (hn : (p.visits h).map List.head? = nodes.map fun n => some (.node n)) :
    (Listing.rows h p told source).map Listing.Entry.tag = nodes.map fun n => (h.node n).tag := by
  have htag : ∀ st ∈ p.visits h, ∀ n, st.head? = some (.node n) →
      (Listing.entry (p.withStack st) h (told st).parens (source st)).tag = (h.node n).tag := by
    intro st hst n hhead
    obtain ⟨rest, rfl⟩ := List.head?_eq_some_iff.1 hhead
    obtain ⟨earlier, hv⟩ := values_cons (.node n) rest
    have henters := (Path.mem_visits_iff.1 hst).1.enters_self
    simp only [enters, hv, Bool.and_eq_true] at henters
    have hnode : (p.withStack (.node n :: rest)).node h = some n := Path.node_of_tip rfl henters.1
    simp [Listing.entry, hnode]
  unfold Listing.rows
  generalize p.visits h = sts at hn htag
  induction sts generalizing nodes with
  | nil =>
    cases nodes with
    | nil => rfl
    | cons n nodes => cases hn
  | cons st sts ih =>
    cases nodes with
    | nil => cases hn
    | cons n nodes =>
      obtain ⟨hst, hsts⟩ := List.cons.inj hn
      rw [List.map_cons, List.map_cons, List.map_cons, htag st List.mem_cons_self n hst,
        ih hsts fun y hy => htag y (List.mem_cons_of_mem _ hy)]

/-- The rows in need of parentheses are the same for both kinds of callers, but for those that are dropped. -/
theorem Answers.sublist (ha : Answers h p verdict source) :
    List.Sublist ((Listing.rows h p (verdict true) source).filter Listing.Entry.parens)
      ((Listing.rows h p (verdict false) source).filter Listing.Entry.parens) := by
  -- a row that needs parentheses does not tell for which callers
  have hrows : ∀ e, (Listing.rows h p (verdict e) source).filter Listing.Entry.parens =
      ((p.visits h).filter fun st => (verdict e st).parens).map
        fun st => Listing.entry (p.withStack st) h true (source st) := by
    intro e
    unfold Listing.rows
    rw [List.filter_map]
    apply List.map_congr_left
    intro st hst
    have hyes : (verdict e st).parens = true := (List.mem_filter.1 hst).2
    rw [hyes]
  rw [hrows true, hrows false]
  apply List.Sublist.map
  have hdrop : (p.visits h).filter (fun st => (verdict true st).parens) =
      ((p.visits h).filter fun st => (verdict false st).parens).filter fun st => (verdict true st).parens := by
    rw [List.filter_filter]
    apply List.filter_congr
    intro st hst
    cases hyes : (verdict true st).parens with
    | false => rfl
    | true => rw [(ha.inExpression hst).1 hyes, Bool.and_self]
  rw [hdrop]
  exact List.filter_sublist

/-! ## Commands -/

namespace Command

/-- The arguments ask for the listing of parentheses of a document, in a format, and its tree can be read. -/
def Asks (args : List String) (s : Surroundings) (all e : Bool) (form : String) (root : NodeId) (h : Heap) : Prop :=
  ∃ rest a config path, select args = .ok (.parens, rest) ∧ Flag.parse Verb.parens.flags rest = .ok a ∧
    a.isOn "help" = false ∧ a.isOn "version" = false ∧ a.operands = [path] ∧ Settings.configured a s = .ok config ∧
    tree a s config path = .ok (root, h) ∧
    a.isOn "all" = all ∧ a.isOn "expression-context" = e ∧ (a.value? "output").getD "text" = form

variable {args : List String} {s : Surroundings} {all e : Bool} {form : String}

/-- A command that asks for the listing prints it in its format, and prints nothing if it stops. -/
theorem Asks.run_eq (ha : Asks args s all e form root h) : run args s =
    match Listing.parens h root all e with
    | .error x => { out := "", error := some (.stopped x) }
    | .ok rows =>
      match format form rows with
      | .ok out => { out := out }
      | .error x => { out := "", error := some x } := by
  obtain ⟨rest, a, config, path, hselect, hparse, hhelp, hversion, hpath, hconfig, htree, rfl, rfl, rfl⟩ := ha
  have hexecute : execute args s = perform .parens a s path := by
    unfold execute
    simp [hselect, hparse, hhelp, hversion, hpath, Except.mapError, bind, Except.bind]
  unfold run
  rw [hexecute]
  unfold perform
  simp only [hconfig, htree, Except.mapError, bind, Except.bind]
  cases Listing.parens h root (a.isOn "all") (a.isOn "expression-context") with
  | error x => rfl
  | ok rows =>
    dsimp only
    cases format ((a.value? "output").getD "text") rows <;> rfl

end Command

/-- On a walk over an acyclic tree, only a broken edge stops a decision. -/
theorem decide_stopsWith_broken (ha : h.Acyclic (.node root)) {st : List Value}
    (hst : st ∈ (Path.new (.node root)).visits h) (b : Bool) :
    StopsWith Stop.IsBroken (((Path.new (.node root)).withStack st).decide h b) := by
  intro x hx
  rcases decide_stopsWith x hx with hbroken | rfl
  · exact hbroken
  · obtain ⟨n, q, hawaits, hcircles⟩ := decide_eq_endless_iff.1 hx
    obtain ⟨rest, rfl⟩ := List.head?_eq_some_iff.1 hawaits.tip
    obtain ⟨earlier, hv⟩ := values_cons (.node n) rest
    have hbelow := (Path.mem_visits_iff.1 hst).1.below_root rfl (.node n) (by simp [hv])
    exact absurd (ha.of_below hbelow) hcircles.not_acyclic

/-- **The listing of parentheses loses and invents nothing.** A walk over the tree of a document visits its nodes in
preorder. If no decision there is broken, the listing of all nodes has one row for each of them, in this order, with its
tag and the verdict on it for either kind of caller; the other listing has those of them that need parentheses; for
callers that know better it drops rows only of nodes that may not lead; and a command that asks for a listing prints its
rows. Otherwise every listing stops with the first broken decision, and the command gives that as its error and prints
nothing. -/
theorem parens_complete {rs : Document.Load.Readings} {start : Heap} {d : Document.Datum}
    (hload : Document.load rs start d = .ok (root, h)) :
    ∃ nodes, h.preorder (.node root) = some nodes ∧
      ((Path.new (.node root)).visits h).map List.head? = nodes.map (fun n => some (.node n)) ∧
      ((∀ st ∈ (Path.new (.node root)).visits h, ∀ x,
          ((Path.new (.node root)).withStack st).decide h false ≠ .error (.broken x)) →
        ∃ verdict source, Answers h (.new (.node root)) verdict source ∧
          (∀ e, h.count (.node root) = some (Listing.rows h (.new (.node root)) (verdict e) source).length ∧
            (Listing.rows h (.new (.node root)) (verdict e) source).map Listing.Entry.tag =
              nodes.map (fun n => (h.node n).tag) ∧
            Listing.parens h root true e = .ok (Listing.rows h (.new (.node root)) (verdict e) source) ∧
            Listing.parens h root false e =
              .ok ((Listing.rows h (.new (.node root)) (verdict e) source).filter Listing.Entry.parens)) ∧
          List.Sublist ((Listing.rows h (.new (.node root)) (verdict true) source).filter Listing.Entry.parens)
            ((Listing.rows h (.new (.node root)) (verdict false) source).filter Listing.Entry.parens) ∧
          (∀ st ∈ (Path.new (.node root)).visits h, (verdict false st).parens = true →
            (verdict true st).parens = false → ∃ n, st.head? = some (.node n) ∧
              (h.kind (some n) = .objectExpression ∨ h.kind (some n) = .functionExpression ∨
                h.kind (some n) = .classExpression ∨ isLetBracket h n = true)) ∧
          ∀ args s all e form, Command.Asks args s all e form root h → Command.run args s =
            match Command.format form
              ((Listing.rows h (.new (.node root)) (verdict e) source).filter fun r => r.parens || all) with
            | .ok out => { out := out }
            | .error x => { out := "", error := some x }) ∧
      ((∃ st ∈ (Path.new (.node root)).visits h, ∃ x,
          ((Path.new (.node root)).withStack st).decide h false = .error (.broken x)) →
        ∃ x before st after, (Path.new (.node root)).visits h = before ++ st :: after ∧
          (∀ y ∈ before, ∃ v, ((Path.new (.node root)).withStack y).decide h false = .ok v) ∧
          ((Path.new (.node root)).withStack st).decide h false = .error (.broken x) ∧
          (∀ all e, Listing.parens h root all e = .error (.broken x)) ∧
          ∀ args s all e form, Command.Asks args s all e form root h →
            Command.run args s = { out := "", error := some (.stopped (.broken x)) }) := by
  have hplain := Document.plain_of_load hload
  obtain ⟨nodes, hnodes, hheads⟩ := heads_visits hplain
  refine ⟨nodes, hnodes, hheads, ?_, ?_⟩
  · intro hunbroken
    have hok : ∀ st ∈ (Path.new (.node root)).visits h,
        ∃ v, ((Path.new (.node root)).withStack st).decide h false = .ok v := by
      intro st hst
      cases hd : ((Path.new (.node root)).withStack st).decide h false with
      | ok v => exact ⟨v, rfl⟩
      | error x =>
        obtain ⟨y, rfl⟩ := decide_stopsWith_broken hplain.acyclic hst false x hd
        exact absurd hd (hunbroken st hst y)
    obtain ⟨verdict, source, hanswers⟩ := exists_answers hok
    refine ⟨verdict, source, hanswers, ?_, hanswers.sublist, ?_, ?_⟩
    · intro e
      refine ⟨?_, tags_rows hheads, ?_, ?_⟩
      · have hlength := congrArg List.length hheads
        rw [List.length_map, List.length_map] at hlength
        rw [Heap.count_eq_length, hnodes, Listing.rows, List.length_map, hlength]
        rfl
      · simpa using parens_of_answers hanswers true e
      · simpa using parens_of_answers hanswers false e
    · intro st hst
      exact (hanswers.inExpression hst).2
    · intro args s all e form hasks
      rw [hasks.run_eq, parens_of_answers hanswers all e]
  · rintro ⟨st, hst, y, hy⟩
    rcases Tour.all_ok_or_first_error
        (fun st => ((Path.new (.node root)).withStack st).decide h false) ((Path.new (.node root)).visits h) with
      hall | ⟨before, st, after, x, hv, hok, hx⟩
    · obtain ⟨v, hv⟩ := hall st hst
      exact absurd (hv.symm.trans hy) (by simp)
    · have hmem : st ∈ (Path.new (.node root)).visits h := by
        rw [hv]
        exact List.mem_append_right _ List.mem_cons_self
      obtain ⟨y, rfl⟩ := decide_stopsWith_broken hplain.acyclic hmem false x hx
      refine ⟨y, before, st, after, hv, hok, hx, parens_of_error hv hok hx, ?_⟩
      intro args s all e form hasks
      rw [hasks.run_eq, parens_of_error hv hok hx]

/-! ### A folder with two documents -/

/-- A document of a statement that an object leads. -/
def leadingDatum : Document.Datum :=
  .mapping [("type", .str "ExpressionStatement"), ("expression", .mapping [("type", .str "ObjectExpression")])]

/-- The objects of this document. -/
def leadingDocument : Heap where
  nodes := #[{ tag := "ObjectExpression" },
    { tag := "ExpressionStatement", fields := .ofEntries [("expression", .node ⟨0⟩)] }]

/-- A document of a sequence where a list stands for the first expression. -/
def listedDatum : Document.Datum :=
  .mapping [("type", .str "SequenceExpression"),
    ("expressions", .list [.list [.mapping [("type", .str "ClassExpression")]]])]

/-- The objects of this document. -/
def listedDocument : Heap where
  nodes := #[{ tag := "ClassExpression" },
    { tag := "SequenceExpression", fields := .ofEntries [("expressions", .list ⟨1⟩)] }]
  lists := #[[.node ⟨0⟩], [.list ⟨0⟩]]

theorem load_leadingDatum : Document.load .byKey {} leadingDatum = .ok (⟨1⟩, leadingDocument) := rfl

theorem load_listedDatum : Document.load .byKey {} listedDatum = .ok (⟨1⟩, listedDocument) := rfl

/-- The text of the first document. -/
def leadingText : String := "\x7btype: ExpressionStatement,expression: \x7btype: ObjectExpression\x7d\x7d"

/-- The text of the second document. -/
def listedText : String := "\x7btype: SequenceExpression,expressions: [[\x7btype: ClassExpression\x7d]]\x7d"

/-- The documents in two files, beside an empty configuration. -/
def sampleFolder : Command.Surroundings where
  folder := { files := [("a", leadingText), ("b", listedText), (".env", "")] }
  environment := [("FASTPATH_CONFIG", ".env")]

section SampleFolder

open Document

/-- The lexemes of the first text. -/
def leadingLexemes : List Lexeme :=
  [⟨.openBrace, "\x7b", 1, 1, 0⟩, ⟨.plain, "type", 1, 2, 0⟩, ⟨.colon, ":", 1, 6, 0⟩,
    ⟨.plain, "ExpressionStatement", 1, 8, 0⟩, ⟨.comma, ",", 1, 27, 0⟩, ⟨.plain, "expression", 1, 28, 0⟩,
    ⟨.colon, ":", 1, 38, 0⟩, ⟨.openBrace, "\x7b", 1, 40, 0⟩, ⟨.plain, "type", 1, 41, 0⟩, ⟨.colon, ":", 1, 45, 0⟩,
    ⟨.plain, "ObjectExpression", 1, 47, 0⟩, ⟨.closeBrace, "\x7d", 1, 63, 0⟩, ⟨.closeBrace, "\x7d", 1, 64, 0⟩]

/-- The lexemes of the second text. -/
def listedLexemes : List Lexeme :=
  [⟨.openBrace, "\x7b", 1, 1, 0⟩, ⟨.plain, "type", 1, 2, 0⟩, ⟨.colon, ":", 1, 6, 0⟩,
    ⟨.plain, "SequenceExpression", 1, 8, 0⟩, ⟨.comma, ",", 1, 26, 0⟩, ⟨.plain, "expressions", 1, 27, 0⟩,
    ⟨.colon, ":", 1, 38, 0⟩, ⟨.openBracket, "[", 1, 40, 0⟩, ⟨.openBracket, "[", 1, 41, 0⟩,
    ⟨.openBrace, "\x7b", 1, 42, 0⟩, ⟨.plain, "type", 1, 43, 0⟩, ⟨.colon, ":", 1, 47, 0⟩, ⟨.plain, "ClassExpression", 1, 49, 0⟩,
    ⟨.closeBrace, "\x7d", 1, 64, 0⟩, ⟨.closeBracket, "]", 1, 65, 0⟩, ⟨.closeBracket, "]", 1, 66, 0⟩,
    ⟨.closeBrace, "\x7d", 1, 67, 0⟩]

theorem read?_sampleTexts :
    Datum.read? leadingText = some leadingDatum ∧ Datum.read? listedText = some listedDatum := by
  have hleading : Lexeme.scan? leadingText = some leadingLexemes := by decide +kernel
  have hlisted : Lexeme.scan? listedText = some listedLexemes := by decide +kernel
  unfold Datum.read?
  rw [hleading, hlisted]
  exact ⟨rfl, rfl⟩

/-- Names without a slash lead to a file of the working directory. -/
theorem names_sampleFolder : Command.Folder.names "a" = ([], ["a"]) ∧ Command.Folder.names "b" = ([], ["b"]) ∧
    Command.Folder.names ".env" = ([], [".env"]) := by
  have ⟨ha, hb⟩ : "a".splitOn "/" = ["a"] ∧ "b".splitOn "/" = ["b"] := by
    constructor <;>
    · rw [String.splitOn, if_neg (by decide), String.splitOnAux, if_neg (by decide), if_neg (by decide),
        String.splitOnAux, if_pos (by decide)]
      decide +kernel
  have henv : ".env".splitOn "/" = [".env"] := by
    rw [String.splitOn, if_neg (by decide)]
    iterate 4 rw [String.splitOnAux, if_neg (by decide), if_neg (by decide)]
    rw [String.splitOnAux, if_pos (by decide)]
    decide +kernel
  simp [Command.Folder.names, ha, hb, henv]

theorem read_sampleFolder : sampleFolder.folder.read "a" = .ok leadingText ∧
    sampleFolder.folder.read "b" = .ok listedText ∧ sampleFolder.folder.read ".env" = .ok "" := by
  obtain ⟨ha, hb, henv⟩ := names_sampleFolder
  have hsizes : "a".utf8ByteSize = 1 ∧ "b".utf8ByteSize = 1 ∧ ".env".utf8ByteSize = 4 := by decide
  refine ⟨?_, ?_, ?_⟩ <;>
    simp [Command.Folder.read, ha, hb, henv, hsizes, Command.Folder.pathLimit, Command.Folder.nameLimit,
      Command.Folder.follow, Command.Folder.isFolder, Command.Folder.fileAt?, Command.Folder.place,
      Command.Folder.enter, sampleFolder]

theorem configured_sampleFolder (operand : String) :
    Command.Settings.configured { operands := [operand] } sampleFolder = .ok [] := by
  have hnamed : Command.Settings.namedPath? { operands := [operand] } sampleFolder = some ".env" := rfl
  have hextension : Command.Settings.extension ".env" = "env" := by decide +kernel
  have hlines : "".splitOn "\n" = [""] := by
    rw [String.splitOn, if_neg (by decide), String.splitOnAux, if_pos (by decide)]
    decide +kernel
  have hentries : Command.Settings.entries .dotenv "" = .ok [] := by
    have hread : Config.Dotenv.read? "" = some (.mapping []) := by
      unfold Config.Dotenv.read?
      rw [hlines]
      rfl
    simp [Command.Settings.entries, Config.Format.settings?, Config.Format.datum?, hread]
  unfold Command.Settings.configured
  rw [hnamed]
  dsimp only
  rw [hextension, if_pos (by decide), read_sampleFolder.2.2]
  exact hentries

theorem tree_sampleFolder : Command.tree { operands := ["a"] } sampleFolder [] "a" = .ok (⟨1⟩, leadingDocument) ∧
    Command.tree { operands := ["b"] } sampleFolder [] "b" = .ok (⟨1⟩, listedDocument) := by
  have hvalid : leadingDocument.validate .standard (some ⟨1⟩) = .ok [] ∧
      listedDocument.validate .standard (some ⟨1⟩) = .ok [] := by decide
  have hcheck : ∀ operand, Command.Settings.isOn { operands := [operand] } sampleFolder [] "no-validate"
      "FASTPATH_NO_VALIDATE" = false := fun _ => by rfl
  have hreadings : sampleFolder.readings = .byKey := rfl
  constructor <;>
    simp [Command.tree, read_sampleFolder, loadText, read?_sampleTexts, load_leadingDatum, load_listedDatum, hreadings,
      hcheck, hvalid, Except.mapError, bind, Except.bind, pure, Except.pure]

theorem asks_sampleFolder :
    Command.Asks ["parens", "a"] sampleFolder false false "text" ⟨1⟩ leadingDocument ∧
    Command.Asks ["parens", "b"] sampleFolder false false "text" ⟨1⟩ listedDocument :=
  ⟨⟨["a"], { operands := ["a"] }, [], "a", rfl, rfl, rfl, rfl, rfl, configured_sampleFolder "a", tree_sampleFolder.1,
      rfl, rfl, rfl⟩,
    ⟨["b"], { operands := ["b"] }, [], "b", rfl, rfl, rfl, rfl, rfl, configured_sampleFolder "b", tree_sampleFolder.2,
      rfl, rfl, rfl⟩⟩

end SampleFolder

/-- The object is listed, and dropped for callers that know better; the list breaks the decision about what it holds. -/
theorem parens_complete_sampleFolder :
    Document.load .byKey {} leadingDatum = .ok (⟨1⟩, leadingDocument) ∧
    Document.load .byKey {} listedDatum = .ok (⟨1⟩, listedDocument) ∧
    (∃ rows, Listing.parens leadingDocument ⟨1⟩ true true = .ok rows ∧
      leadingDocument.count (.node ⟨1⟩) = some rows.length ∧
      rows.map Listing.Entry.tag = ["ExpressionStatement", "ObjectExpression"]) ∧
    (∃ rows kept, Listing.parens leadingDocument ⟨1⟩ false false = .ok rows ∧
      Listing.parens leadingDocument ⟨1⟩ false true = .ok kept ∧ rows.map Listing.Entry.tag = ["ObjectExpression"] ∧
      kept = [] ∧ List.Sublist kept rows ∧ Command.run ["parens", "a"] sampleFolder =
        match Command.format "text" rows with
        | .ok out => { out := out }
        | .error x => { out := "", error := some x }) ∧
    ∃ x, (∀ all e, Listing.parens listedDocument ⟨1⟩ all e = .error (.broken x)) ∧
      Command.run ["parens", "b"] sampleFolder = { out := "", error := some (.stopped (.broken x)) } := by
  obtain ⟨hasks, hasks'⟩ := asks_sampleFolder
  refine ⟨load_leadingDatum, load_listedDatum, ?_⟩
  obtain ⟨nodes, hnodes, -, hanswered, -⟩ := parens_complete load_leadingDatum
  obtain rfl : nodes = [⟨1⟩, ⟨0⟩] := by
    have hlisted : leadingDocument.preorder (.node ⟨1⟩) = some [⟨1⟩, ⟨0⟩] := by decide
    exact Option.some.inj (hnodes.symm.trans hlisted)
  have hunbroken : ∀ st ∈ (Path.new (.node ⟨1⟩)).visits leadingDocument, ∀ x,
      ((Path.new (.node ⟨1⟩)).withStack st).decide leadingDocument false ≠ .error (.broken x) := by
    have hok : ∀ st ∈ (Path.new (.node ⟨1⟩)).visits leadingDocument,
        (((Path.new (.node ⟨1⟩)).withStack st).decide leadingDocument false).isOk = true := by decide
    intro st hst x hx
    have hst := hok st hst
    rw [hx] at hst
    cases hst
  obtain ⟨verdict, source, -, hrows, hsub, -, hrun⟩ := hanswered hunbroken
  have hkept : Listing.parens leadingDocument ⟨1⟩ false true = .ok [] := by decide +kernel
  have hlisted : Listing.parens leadingDocument ⟨1⟩ false false =
      .ok [⟨"expression", "ObjectExpression", "ExpressionStatement", "-", true, false⟩] := by decide +kernel
  refine ⟨⟨_, (hrows true).2.2.1, (hrows true).1, (hrows true).2.1⟩,
    ⟨_, _, (hrows false).2.2.2, (hrows true).2.2.2, ?_, ?_, hsub, by simpa using hrun _ _ _ _ _ hasks⟩, ?_⟩
  · rw [Except.ok.inj ((hrows false).2.2.2.symm.trans hlisted)]
    rfl
  · exact Except.ok.inj ((hrows true).2.2.2.symm.trans hkept)
  · obtain ⟨-, -, -, -, hbroken⟩ := parens_complete load_listedDatum
    have hstops : ∃ st ∈ (Path.new (.node ⟨1⟩)).visits listedDocument,
        ((Path.new (.node ⟨1⟩)).withStack st).decide listedDocument false =
          .error (.broken (.notFirst listedDocument ⟨1⟩)) := by decide
    obtain ⟨st, hst, hx⟩ := hstops
    obtain ⟨x, -, -, -, -, -, -, hlist, hrun⟩ := hbroken ⟨st, hst, _, hx⟩
    exact ⟨x, hlist, hrun _ _ _ _ _ hasks'⟩

end Bracketing
