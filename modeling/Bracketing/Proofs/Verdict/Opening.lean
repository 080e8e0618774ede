import Bracketing.Proofs.Path.Walked
import Bracketing.Proofs.Verdict.Leading

/-!
# The first token of a statement

A statement that begins with a brace is a block, one that begins with `function` or `class` is a declaration, and one
that begins with `let [` declares variables; the body of an arrow function that begins with a brace is a block.
`Opens` says which token a node prints first: a parenthesis if it is printed in parentheses, else what its leftmost
child prints first, else a token of its own.

The rules look at leading position from below, going up from a node, and `Opens` goes down. They meet in `Front`: a
path whose node is in leading position.

* **Restricted nodes in front get parentheses** (`Front.decide_restricted`).
* **One step down** (`Front.child`): what a node in front prints first is in front.
* **No opening is misread** (`Opens.allowed`, `opening_of_walk`). The paths of which this is said are those that a walk
  visits (`walked_iff_mem_visits`).
-/

namespace Bracketing

open Bracketing.Tree

/-! ## Openings -/

/-- The first token of a printed node, as far as statements and bodies are concerned. -/
inductive Opening where
  | paren
  | brace
  | functionWord
  | classWord
  | name (s : String)
  /-- A name and, right after it, the bracket of a member access. -/
  | nameBracket (s : String)
  | other
  deriving DecidableEq, Repr

namespace Opening

/-- The token does not make something else of a statement. -/
def beginsStatement : Opening → Bool
  | brace | functionWord | classWord => false
  | nameBracket s => s ≠ "let"
  | _ => true

/-- The token that a node prints itself if it prints no child first. -/
def own (h : Heap) (n : NodeId) : Opening :=
  match h.kind (some n) with
  | .objectExpression | .objectPattern => .brace
  | .functionExpression => .functionWord
  | .classExpression => .classWord
  | .parenthesized => .paren
  | .identifier => .name (h.textAt n "name")
  | _ => .other

/-- The opening of a node, given that of the child it prints first: in a computed access to a member of an identifier
the bracket follows the name. -/
def within (h : Heap) (n c : NodeId) : Opening → Opening
  | .name s =>
    if h.kind (some n) = .member && h.flagAt n "computed" && h.kind (some c) = .identifier then .nameBracket s
    else .name s
  | t => t

end Opening

/-- The child that a node prints first, and the path to it. -/
def Path.firstChild? (p : Path) (h : Heap) (n : NodeId) : Option (NodeId × Path) :=
  if h.kind (some n) = .sequence then
    match (h.elements n "expressions").head? with
    | some (.node c) =>
      if p.grammar.isNode h (.node c) then some (c, (p.down h (.str "expressions")).down h (.index 0)) else none
    | _ => none
  else
    (leftmostSlot? h n).bind fun k => (h.child? n k).bind fun c =>
      if p.grammar.isNode h (.node c) then some (c, p.down h (.str k)) else none

/-- `Opens h p n t` says that the node `n` at the tip of `p` is printed with the token `t` first. -/
inductive Opens (h : Heap) : Path → NodeId → Opening → Prop
  | parens {p : Path} {n : NodeId} {v : Verdict} : p.decide h false = .ok v → v.parens = true → Opens h p n .paren
  | child {p q : Path} {n c : NodeId} {v : Verdict} {t : Opening} : p.decide h false = .ok v → v.parens = false →
      p.firstChild? h n = some (c, q) → Opens h q c t → Opens h p n (t.within h n c)
  | own {p : Path} {n : NodeId} {v : Verdict} : p.decide h false = .ok v → v.parens = false →
      p.firstChild? h n = none → Opens h p n (.own h n)

variable {h : Heap} {p q : Path} {n c : NodeId} {t : Opening}

/-- A node has one opening. -/
theorem Opens.unique {t' : Opening} (ht : Opens h p n t) (ht' : Opens h p n t') : t' = t := by
  induction ht generalizing t' with
  | parens hd hv =>
    cases ht' with
    | parens => rfl
    | child hd' hv' | own hd' hv' =>
      rw [hd] at hd'
      cases hd'
      simp [hv] at hv'
  | child hd hv hf _ ih =>
    cases ht' with
    | parens hd' hv' =>
      rw [hd] at hd'
      cases hd'
      simp [hv] at hv'
    | child _ _ hf' ho =>
      rw [hf] at hf'
      cases hf'
      rw [ih ho]
    | own _ _ hf' => simp [hf] at hf'
  | own hd hv hf =>
    cases ht' with
    | parens hd' hv' =>
      rw [hd] at hd'
      cases hd'
      simp [hv] at hv'
    | child _ _ hf' => simp [hf] at hf'
    | own => rfl

/-- The two ways to the child that a node prints first: a field, or the head of the expressions of a sequence. -/
theorem firstChild_cases (hf : p.firstChild? h n = some (c, q)) :
    p.grammar.isNode h (.node c) = true ∧
      ((∃ k, leftmostSlot? h n = some k ∧ h.get n k = .node c ∧ q = p.down h (.str k)) ∨
        (h.kind (some n) = .sequence ∧ ∃ l, h.get n "expressions" = .list l ∧ (h.list l)[0]? = some (.node c) ∧
          q = (p.down h (.str "expressions")).down h (.index 0))) := by
  unfold Path.firstChild? at hf
  split at hf
  · rename_i hk
    cases hl : h.get n "expressions" with
    | list l =>
      simp only [Heap.elements, hl] at hf
      split at hf
      · rename_i c' hc'
        split at hf
        · rename_i hn
          cases hf
          exact ⟨hn, .inr ⟨hk, l, rfl, by rw [← List.head?_eq_getElem?, hc'], rfl⟩⟩
        · cases hf
      · cases hf
    | _ => simp [Heap.elements, hl] at hf
  · obtain ⟨k, hk, hf⟩ := Option.bind_eq_some_iff.1 hf
    obtain ⟨c', hc', hf⟩ := Option.bind_eq_some_iff.1 hf
    split at hf
    · rename_i hn
      cases hf
      refine ⟨hn, .inl ⟨k, hk, ?_, rfl⟩⟩
      unfold Heap.child? at hc'
      split at hc'
      · rename_i m hm
        cases hc'
        exact hm
      · cases hc'
    · cases hf

/-! ## Nodes in front -/

/-- The path stands at a node that prints the first token of a statement or of a body; `b` tells which. -/
structure Front (h : Heap) (p : Path) (c : NodeId) (b : Bool) : Prop where
  standard : p.grammar = .standard
  tip : ∃ rest, p.stack = .node c :: rest
  isNode : p.grammar.isNode h (.node c) = true
  acyclic : h.Acyclic (.node c)
  held : ∃ n, p.parent h = some n ∧ (⟨h, c, n, p.name⟩ : Site).Held
  leads : p.leads h false = .ok true
  leadsStatement : p.leads h true = .ok b

namespace Front

variable {b : Bool}

/-- A node in a field is in front if the step to its parent says so. -/
theorem of_field {k : String} {r : Passage} {rest : List Value} (hstd : p.grammar = .standard)
    (hs : p.stack = .node n :: rest) (hn : p.grammar.isNode h (.node n) = true) (ha : h.Acyclic (.node n))
    (hc : p.grammar.isNode h (.node c) = true) (hk : h.get n k = .node c)
    (hr : passage h c (.str k) n (some (.str k)) = .ok r) (hl : r.lead false (p.leads h false) = .ok true)
    (hls : r.lead true (p.leads h true) = .ok b) : Front h (p.down h (.str k)) c b where
  standard := by simp [hstd]
  tip := ⟨_, by rw [Path.down_stack hs, resolve_field, hk]⟩
  isNode := by simpa using hc
  acyclic := ha.member (Heap.member_of_get_object hk (.inl ⟨c, rfl⟩))
  held := by
    refine ⟨n, parent_field hs hn hc hk, ?_⟩
    intro k' hk'
    rw [Path.down_name hs] at hk'
    cases hk'
    exact hk
  leads := by rw [leads_field hs hn hc hk, hr]; exact hl
  leadsStatement := by rw [leads_field hs hn hc hk, hr]; exact hls

/-- What a node in front prints first is in front. -/
theorem child (hf : Front h p n b) (hc : p.firstChild? h n = some (c, q)) : Front h q c b := by
  obtain ⟨rest, hs⟩ := hf.tip
  obtain ⟨hcn, ⟨k, hslot, hk, rfl⟩ | ⟨hseq, l, hl, hi, rfl⟩⟩ := firstChild_cases hc
  · exact of_field hf.standard hs hf.isNode hf.acyclic hcn hk (passage_leftmost hslot hk _) hf.leads hf.leadsStatement
  · have hstack : (p.down h (.str "expressions")).stack = .list l :: .str "expressions" :: .node n :: rest := by
      rw [Path.down_stack hs, resolve_field, hl]
    have hmem : h.Member (.node n) (.list l) := Heap.member_of_get_object hl (.inr ⟨l, rfl⟩)
    have hitem : Path.resolve h (.list l) (.index 0) = .node c := resolve_element hi
    have hlead : ∀ s, ((p.down h (.str "expressions")).down h (.index 0)).leads h s = p.leads h s := by
      intro s
      refine (leads_element hs hf.isNode hcn hl hi s).trans ?_
      show (passage h c (.index 0) n _).bind _ = _
      rw [passage_first hseq hl hi]
      rfl
    exact {
      standard := by simp [hf.standard]
      tip := ⟨_, by rw [Path.down_stack hstack, hitem]⟩
      isNode := by simpa using hcn
      acyclic := (hf.acyclic.member hmem).member (Heap.member_of_mem (List.mem_of_getElem? hi))
      held := by
        refine ⟨n, parent_element hs hf.isNode hcn hl hi, ?_⟩
        intro k hk
        rw [Path.down_name hstack] at hk
        cases hk
      leads := (hlead false).trans hf.leads
      leadsStatement := (hlead true).trans hf.leadsStatement }

/-- Nothing is printed before a node in front. -/
theorem parentKind_ne (hf : Front h p c b) {n : NodeId} (hp : p.parent h = some n) :
    h.kind (some n) ≠ .new ∧ h.kind (some n) ≠ .parenthesized := by
  obtain ⟨rest, hs⟩ := hf.tip
  obtain ⟨next, outer, ho⟩ := exists_leads_eq hs hf.isNode hp false
  rw [hf.leads] at ho
  refine ⟨fun hk => ?_, fun hk => ?_⟩
  · rw [passage_closed (.inl hk)] at ho
    cases ho
  · rw [passage_closed (.inr hk)] at ho
    cases ho

theorem exists_decide (hf : Front h p c b) : ∃ v, p.decide h false = .ok v := by
  obtain ⟨rest, hs⟩ := hf.tip
  obtain ⟨n, hn, hheld⟩ := hf.held
  refine exists_decide_of_held hs hf.isNode hf.acyclic ?_ ?_ false
  · intro m hm
    rw [hn] at hm
    cases hm
    exact hheld
  · intro s
    cases s with
    | true => exact ⟨_, hf.leadsStatement⟩
    | false => exact ⟨_, hf.leads⟩

/-- A node that may not begin a statement is no statement, no identifier, and of a kind whose rule asks for parentheses
or leaves the decision to the place of the node. -/
theorem byKind_restricted (hm : mayLead h (some c) = false) :
    isStatementTag (h.node c).tag = false ∧ h.kind (some c) ≠ .identifier ∧
      ∀ (n : NodeId) (name : Value) (g : Option NodeId), (⟨h, c, n, name⟩ : Site).byKind g = .ok (some true) ∨
        (⟨h, c, n, name⟩ : Site).byKind g = .ok none := by
  have hkind : h.kind (some c) ∈ [Kind.functionExpression, .objectExpression, .classExpression, .member] := by
    cases hk : h.kind (some c) <;> simp [mayLead, isLetBracket, hk] at hm ⊢
  have hplain : ∀ k ∈ [Kind.functionExpression, .objectExpression, .classExpression, .member],
      k ≠ .other ∧ k ≠ .identifier ∧ isStatementTag k.tag = false := by decide
  obtain ⟨h1, h2, h3⟩ := hplain _ hkind
  refine ⟨by rw [Heap.tag_of_kind rfl h1, h3], h2, fun n name g => ?_⟩
  have hk : (⟨h, c, n, name⟩ : Site).kind = h.kind (some c) := rfl
  unfold Site.byKind
  simp only [List.mem_cons, List.not_mem_nil, or_false] at hkind
  rcases hkind with hkind | hkind | hkind | hkind <;> rw [hk, hkind] <;> simp

/-- Restricted nodes in front get parentheses: objects always, the others in front of a statement. -/
theorem decide_restricted (hf : Front h p c b) (hm : mayLead h (some c) = false)
    (hb : h.kind (some c) = .objectExpression ∨ b = true) : ∃ r, p.decide h false = .ok ⟨true, r⟩ := by
  obtain ⟨rest, hs⟩ := hf.tip
  obtain ⟨n, hn, -⟩ := hf.held
  obtain ⟨hnew, hpar⟩ := hf.parentKind_ne hn
  obtain ⟨hst, hid, hby⟩ := byKind_restricted hm
  have hst' : p.grammar.isStatement h c = false := by rw [hf.standard]; exact hst
  have hleads : p.leads h (h.kind (some c) ≠ .objectExpression) = .ok true := by
    by_cases hk : h.kind (some c) = .objectExpression
    · simpa [hk] using hf.leads
    · simpa [hk, hb.resolve_left hk] using hf.leadsStatement
  rw [Path.decide_node hs hf.isNode, hn]
  split
  · exact ⟨_, rfl⟩
  · cases hmark : h.parenthesized c with
    | true =>
      refine ⟨.sourceParens, ?_⟩
      simp only [Path.decideUnder, Site.kind, Site.parentKind, hst', hid, hpar, hmark, if_false, if_true,
        Bool.false_eq_true]
    | false =>
      have heq := Path.decideUnder_eq (p := p) (s := ⟨h, c, n, p.name⟩) (b := false) hst' hid hpar hmark
      rcases hby n p.name (p.parent h 1) with hby | hby
      · exact ⟨_, heq.trans (by rw [hby]; rfl)⟩
      · refine ⟨.leadingToken, heq.trans ?_⟩
        rw [hby]
        exact Path.decideByPlace_of_leads hnew hm hleads

end Front

/-! ## Patterns -/

/-- The value is an object pattern. -/
def isPattern (h : Heap) : Value → Bool
  | .node c => h.kind (some c) = .objectPattern
  | _ => false

/-- The object holds no object pattern, unless it is an assignment to one. -/
def HoldsNoPattern (h : Heap) : Value → Prop
  | .node n => ∀ e ∈ (h.node n).fields.entries, isPattern h e.2 = true →
      h.kind (some n) = .assignment ∧ e.1 = "left"
  | .list l => ∀ v ∈ h.list l, isPattern h v = false
  | _ => True

/-- Object patterns occur below the value only as what is assigned to. -/
def PatternsAssigned (h : Heap) (v : Value) : Prop := ∀ w, h.Below v w → HoldsNoPattern h w

theorem PatternsAssigned.of_below {v w : Value} (hp : PatternsAssigned h v) (hw : h.Below v w) :
    PatternsAssigned h w :=
  fun u hu => hp u (hw.trans hu)

/-- A heap all of whose objects hold patterns only as what is assigned to. -/
theorem patternsAssigned_of_objects (hn : ∀ i < h.nodes.size, HoldsNoPattern h (.node ⟨i⟩))
    (hl : ∀ i < h.lists.size, HoldsNoPattern h (.list ⟨i⟩)) (v : Value) : PatternsAssigned h v := by
  intro w _
  match w with
  | .node n =>
    by_cases hi : n.index < h.nodes.size
    · exact hn n.index hi
    · have he : h.node n = {} := by simp [Heap.node, Array.getD, hi]
      simp [HoldsNoPattern, he]
  | .list l =>
    by_cases hi : l.index < h.lists.size
    · exact hl l.index hi
    · have he : h.list l = [] := by simp [Heap.list, Array.getD, hi]
      simp [HoldsNoPattern, he]
  | .null | .noNode | .bool _ | .num _ | .str _ | .index _ | .map _ | .location _ | .foreign _ =>
    trivial

/-- The child that a node prints first is no pattern, unless the node is an assignment to one. -/
theorem PatternsAssigned.firstChild (hp : PatternsAssigned h (.node n)) (hc : p.firstChild? h n = some (c, q)) :
    PatternsAssigned h (.node c) ∧ (h.kind (some c) = .objectPattern →
      h.kind (some n) = .assignment ∧ h.kind (h.child? n "left") = .objectPattern) := by
  obtain ⟨-, ⟨k, -, hk, -⟩ | ⟨-, l, hl, hi, -⟩⟩ := firstChild_cases hc
  · refine ⟨hp.of_below (.single (Heap.member_of_get_object hk (.inl ⟨c, rfl⟩))), fun hpat => ?_⟩
    obtain ⟨e, he, hek, hev⟩ := exists_entry hk rfl
    obtain ⟨hkind, hleft⟩ := hp (.node n) .refl e he (by simp [isPattern, hev, hpat])
    refine ⟨hkind, ?_⟩
    have : h.child? n "left" = some c := by simp [Heap.child?, ← hleft, hek, hk]
    rw [this, hpat]
  · have hlist : h.Member (.node n) (.list l) := Heap.member_of_get_object hl (.inr ⟨l, rfl⟩)
    have hmem : .node c ∈ h.list l := List.mem_of_getElem? hi
    refine ⟨hp.of_below (.tail (.single hlist) (Heap.member_of_mem hmem)), fun hpat => ?_⟩
    have := hp (.list l) (.single hlist) (.node c) hmem
    simp [isPattern, hpat] at this

/-! ## Openings of nodes in front -/

/-- An identifier opens with its name. -/
theorem Opens.name_eq {s : String} (ho : Opens h p c (.name s)) (hc : h.kind (some c) = .identifier) :
    h.textAt c "name" = s := by
  generalize ht : Opening.name s = t at ho
  cases ho with
  | parens => cases ht
  | child _ _ hf => simp [Path.firstChild?, leftmostSlot?, hc] at hf
  | own =>
    simp only [Opening.own, hc, Opening.name.injEq] at ht
    exact ht.symm

/-- A node opens as its first child does, except that a computed access to a member of an identifier puts a bracket
after the name. -/
theorem within_cases (t : Opening) (h : Heap) (n c : NodeId) : t.within h n c = t ∨
    ∃ s, t = .name s ∧ t.within h n c = .nameBracket s ∧ h.kind (some n) = .member ∧
      h.flagAt n "computed" = true ∧ h.kind (some c) = .identifier := by
  cases t with
  | name s =>
    simp only [Opening.within]
    split
    · rename_i hx
      simp only [Bool.and_eq_true, decide_eq_true_eq] at hx
      exact .inr ⟨s, rfl, rfl, hx.1.1, hx.1.2, hx.2⟩
    · exact .inl rfl
  | _ => exact .inl rfl

/-- **No opening is misread.** What is printed in front of a body does not open with a brace, and what is printed in
front of a statement opens as a statement may. -/
theorem Opens.allowed (ho : Opens h p n t) : ∀ {b : Bool}, Front h p n b → PatternsAssigned h (.node n) →
    h.kind (some n) ≠ .objectPattern → t ≠ .brace ∧ (b = true → t.beginsStatement = true) := by
  induction ho with
  | parens => exact fun _ _ _ => ⟨by simp, fun _ => rfl⟩
  | @child p q n c v t hd hv hf ho ih =>
    intro b hfront hp _
    obtain ⟨⟨rest, hs⟩, hnode⟩ := And.intro hfront.tip hfront.isNode
    obtain ⟨hpc, hpat⟩ := hp.firstChild hf
    -- an assignment to a pattern is printed in parentheses
    have hcpat : h.kind (some c) ≠ .objectPattern := by
      intro hx
      rw [Path.decide_node hs hnode, if_pos (hpat hx)] at hd
      cases hd
      cases hv
    obtain ⟨hbrace, hstmt⟩ := ih (hfront.child hf) hpc hcpat
    rcases within_cases t h n c with htw | ⟨s, rfl, htw, hk, hcomp, hid⟩ <;> rw [htw]
    · exact ⟨hbrace, hstmt⟩
    · refine ⟨by simp, fun hb => ?_⟩
      simp only [Opening.beginsStatement, decide_eq_true_eq]
      -- `let [` begins a declaration, so the access is printed in parentheses
      rintro rfl
      have hobj : h.child? n "object" = some c := by
        obtain ⟨-, ⟨k, hslot, hget, -⟩ | ⟨hseq, -⟩⟩ := firstChild_cases hf
        · simp only [leftmostSlot?, hk, Option.some.injEq] at hslot
          simp [Heap.child?, hslot, hget]
        · rw [hk] at hseq
          cases hseq
      have hm : mayLead h (some n) = false := by
        simp [mayLead, isLetBracket, hk, hcomp, hobj, hid, ho.name_eq hid]
      obtain ⟨r, hr⟩ := hfront.decide_restricted hm (.inr hb)
      rw [hd] at hr
      cases hr
      cases hv
  | @own p n v hd hv hf =>
    intro b hfront hp hpat
    have hobject : h.kind (some n) ≠ .objectExpression := by
      intro hx
      obtain ⟨r, hr⟩ := hfront.decide_restricted (by simp [mayLead, hx]) (.inl hx)
      rw [hd] at hr
      cases hr
      cases hv
    have hword : b = true → h.kind (some n) ≠ .functionExpression ∧ h.kind (some n) ≠ .classExpression := by
      intro hb
      refine ⟨fun hx => ?_, fun hx => ?_⟩ <;>
      · obtain ⟨r, hr⟩ := hfront.decide_restricted (by simp [mayLead, hx]) (.inr hb)
        rw [hd] at hr
        cases hr
        cases hv
    unfold Opening.own
    cases hk : h.kind (some n) <;> simp_all [Opening.beginsStatement]

/-- The child that a node prints first is below the node. -/
theorem below_firstChild (hc : p.firstChild? h n = some (c, q)) :
    Relation.TransGen (fun a b => h.Member b a) (.node c) (.node n) := by
  obtain ⟨-, ⟨k, -, hk, -⟩ | ⟨-, l, hl, hi, -⟩⟩ := firstChild_cases hc
  · exact .single (Heap.member_of_get_object hk (.inl ⟨c, rfl⟩))
  · exact .tail (.single (Heap.member_of_mem (List.mem_of_getElem? hi)))
      (Heap.member_of_get_object hl (.inr ⟨l, rfl⟩))

/-- Every node in front has an opening. -/
theorem Front.exists_opens {b : Bool} (hf : Front h p n b) : ∃ t, Opens h p n t := by
  have hacc := hf.acyclic.acc.transGen
  generalize hv : Value.node n = v at hacc
  induction hacc generalizing p n with
  | intro v _ ih =>
    subst hv
    obtain ⟨⟨parens, r⟩, hd⟩ := hf.exists_decide
    cases parens with
    | true => exact ⟨_, .parens hd rfl⟩
    | false =>
      cases hc : p.firstChild? h n with
      | none => exact ⟨_, .own hd rfl hc⟩
      | some cq =>
        obtain ⟨c, q⟩ := cq
        obtain ⟨t, ht⟩ := ih (.node c) (below_firstChild hc) (hf.child hc) rfl
        exact ⟨_, .child hd rfl hc ht⟩

/-- A node in front has exactly one opening, and it is allowed there. -/
theorem Front.exists_opening {b : Bool} (hf : Front h p n b) (hp : PatternsAssigned h (.node n))
    (hk : h.kind (some n) ≠ .objectPattern) :
    ∃ t : Opening, t ≠ .brace ∧ (b = true → t.beginsStatement = true) ∧ ∀ t', Opens h p n t' ↔ t' = t := by
  obtain ⟨t, ht⟩ := hf.exists_opens
  obtain ⟨h1, h2⟩ := ht.allowed hf hp hk
  refine ⟨t, h1, h2, fun t' => ⟨fun ht' => ht.unique ht', ?_⟩⟩
  rintro rfl
  exact ht

/-- What a node other than an assignment holds is no pattern. -/
theorem PatternsAssigned.kind_ne {k : String} (hp : PatternsAssigned h (.node n)) (hk : h.get n k = .node c)
    (hn : h.kind (some n) ≠ .assignment) : PatternsAssigned h (.node c) ∧ h.kind (some c) ≠ .objectPattern := by
  refine ⟨hp.of_below (.single (Heap.member_of_get_object hk (.inl ⟨c, rfl⟩))), fun hpat => hn ?_⟩
  obtain ⟨e, he, -, hev⟩ := exists_entry hk rfl
  exact (hp (.node n) .refl e he (by simp [isPattern, hev, hpat])).1

theorem isNode_of_kind {k : Kind} (hk : h.kind (some n) = k) (ht : k.tag ≠ "") :
    Grammar.standard.isNode h (.node n) = true := by
  have ho : k ≠ .other := by
    rintro rfl
    exact ht rfl
  simp [Grammar.standard, Heap.tag_of_kind hk ho, ht]

/-- **Statements and bodies are not misread.** Walk an acyclic tree, in which object patterns are only assigned to,
from its root. The expression of every expression statement has one first token, and it is not a brace, not `function`,
not `class`, and not `let` with the bracket of a member access after it. The body of every arrow function, as far as it
is an expression, has one first token, and it is not a brace. -/
theorem opening_of_walk (h : Heap) (root : Value) (ha : h.Acyclic root) (hp : PatternsAssigned h root) (p : Path)
    (hw : Walked h root p) (n c : NodeId) (hn : p.value = .ok (.node n))
    (hc : Grammar.standard.isNode h (.node c) = true) :
    (h.kind (some n) = .expressionStatement → h.get n "expression" = .node c →
      ∃ t : Opening, t.beginsStatement = true ∧ ∀ t', Opens h (p.down h (.str "expression")) c t' ↔ t' = t) ∧
    (h.kind (some n) = .arrowFunction → h.get n "body" = .node c →
      ∃ t : Opening, t ≠ .brace ∧ ∀ t', Opens h (p.down h (.str "body")) c t' ↔ t' = t) := by
  obtain ⟨rest, hs⟩ := Path.exists_stack_of_value hn
  have hstd := hw.standard
  have hbelow := hw.tip_below hs (.inl ⟨n, rfl⟩)
  have hcn : p.grammar.isNode h (.node c) = true := hstd ▸ hc
  refine ⟨fun hk hget => ?_, fun hk hget => ?_⟩
  · have hnn : p.grammar.isNode h (.node n) = true := hstd ▸ isNode_of_kind hk (by decide)
    have hf : Front h (p.down h (.str "expression")) c true :=
      .of_field hstd hs hnn (ha.of_below hbelow) hcn hget (passage_statement hk hget _) rfl rfl
    obtain ⟨hpc, hpat⟩ := (hp.of_below hbelow).kind_ne hget (by simp [hk])
    obtain ⟨t, -, ht, hu⟩ := hf.exists_opening hpc hpat
    exact ⟨t, ht rfl, hu⟩
  · have hnn : p.grammar.isNode h (.node n) = true := hstd ▸ isNode_of_kind hk (by decide)
    have hf : Front h (p.down h (.str "body")) c false :=
      .of_field hstd hs hnn (ha.of_below hbelow) hcn hget (passage_body hk hget _) rfl rfl
    obtain ⟨hpc, hpat⟩ := (hp.of_below hbelow).kind_ne hget (by simp [hk])
    obtain ⟨t, ht, -, hu⟩ := hf.exists_opening hpc hpat
    exact ⟨t, ht, hu⟩

/-- The nodes of the statement `({} = () => ({}))`, which assigns to a pattern. -/
def patternStatement : Heap where
  nodes := #[
    { tag := "ObjectPattern" },
    { tag := "ObjectExpression" },
    { tag := "ArrowFunctionExpression", fields := .ofEntries [("body", .node ⟨1⟩)] },
    { tag := "AssignmentExpression"
      fields := .ofEntries [("operator", .str "="), ("left", .node ⟨0⟩), ("right", .node ⟨2⟩)] },
    { tag := "ExpressionStatement", fields := .ofEntries [("expression", .node ⟨3⟩)] }]

theorem opening_of_walk_patternStatement :
    (∃ t : Opening, t.beginsStatement = true ∧ ∀ t',
      Opens patternStatement ((Path.new (.node ⟨4⟩)).down patternStatement (.str "expression")) ⟨3⟩ t' ↔ t' = t) ∧
    (∃ t : Opening, t ≠ .brace ∧ ∀ t', Opens patternStatement
      ((((Path.new (.node ⟨4⟩)).down patternStatement (.str "expression")).down patternStatement
        (.str "right")).down patternStatement (.str "body")) ⟨1⟩ t' ↔ t' = t) := by
  have ha := Heap.acyclic_of_measure (h := patternStatement) Heap.nodePlace (by decide) (by decide) (.node ⟨4⟩)
  have hp : PatternsAssigned patternStatement (.node ⟨4⟩) := by
    refine patternsAssigned_of_objects ?_ ?_ _ <;> unfold HoldsNoPattern <;> decide
  have hw : Walked patternStatement (.node ⟨4⟩)
      (((Path.new (.node ⟨4⟩)).down patternStatement (.str "expression")).down patternStatement (.str "right")) :=
    .down _ (.down _ .new rfl (show _ = true by decide)) rfl (show _ = true by decide)
  refine ⟨?_, ?_⟩
  · exact (opening_of_walk patternStatement (.node ⟨4⟩) ha hp _ .new ⟨4⟩ ⟨3⟩ rfl (by decide)).1
      (by decide) (by decide)
  · exact (opening_of_walk patternStatement (.node ⟨4⟩) ha hp _ hw ⟨2⟩ ⟨1⟩ rfl (by decide)).2
      (by decide) (by decide)

end Bracketing
