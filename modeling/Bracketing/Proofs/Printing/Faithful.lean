import Bracketing.Proofs.Printing.Reader
import Bracketing.Proofs.Printing.Slot
import Bracketing.Proofs.Verdict.Opening

/-!
# Printing is faithful

The terminals of an expression, with the parentheses that the verdicts ask for, are read back in one way only, and what
is read back is the expression.

* **The body of an arrow function does not begin with a brace** (`head_ne_lbrace`): what prints the first terminal of
  a body gets parentheses if it is an object.
* **Every expression spells itself** (`spells`): by induction on the expression, what is printed for a node is a phrase
  of the node's own category, and in parentheses if the slot does not take that category.
* **One reading** (`print_unambiguous`): the whole is an expression of the grammar, and of no other tree.
-/

namespace Bracketing.Printing

open Bracketing.Tree

variable {h : Heap} {p : Path} {n c : NodeId} {name : Value} {outer inner : Expr} {cat : Category}

theorem bind_eq_ok {α β : Type} {x : Except Stop α} {f : α → Except Stop β} {b : β} (hx : (x >>= f) = .ok b) :
    ∃ a, x = .ok a ∧ f a = .ok b := by
  cases x with
  | error e => cases hx
  | ok a => exact ⟨a, rfl, hx⟩

/-! ## The first terminal -/

theorem head_enclose {us ts : List Terminal} (ht : enclose h p us = .ok ts) (hu : us.head? ≠ some .lbrace) :
    ts.head? ≠ some .lbrace := by
  obtain ⟨v, -, hv⟩ := bind_eq_ok ht
  cases hv
  split
  · simp
  · exact hu

/-- A terminal that stands after others is the first only if there are none. -/
theorem head_append {us vs : List Terminal} (hu : us.head? ≠ some .lbrace) (hv : vs.head? ≠ some .lbrace) :
    (us ++ vs).head? ≠ some .lbrace := by
  cases us with
  | nil => exact hv
  | cons t us => exact hu

theorem leftmostSlot_binary {op : String} (hk : h.kind (some n) = Heap.binaryKind op) :
    leftmostSlot? h n = some "left" := by
  rcases binaryKind_eq op with hb | hb <;> simp [leftmostSlot?, hk, hb]

/-- The child that an expression prints first leads if the expression does. -/
theorem Child.leftmost {k : String} {first : Expr} (hc : Child h p n c name outer inner)
    (hs : leftmostSlot? h c = some k) (hk : IsField k) (hf : h.Holds (h.get c k) first)
    (hl : p.leads h false = .ok true) :
    ∃ c', Child h (p.down h (.str k)) c c' (.str k) inner first ∧ (p.down h (.str k)).leads h false = .ok true := by
  obtain ⟨c', hget, hc'⟩ := hc.stands.field hc.holds hk hf
  obtain ⟨rest, hp⟩ := hc.stands.tip
  have hn' : p.grammar.isNode h (.node c') = true := by simpa using hc'.isNode
  exact ⟨c', hc', (leads_leftmost hp hc.isNode hn' hs hget false).trans hl⟩

theorem Child.front (hc : Child h p n c name outer inner) (hl : p.leads h false = .ok true) :
    ∃ b, Front h p c b := by
  have ht : Trail p.grammar h p.stack := hc.stands.standard ▸ hc.stands.trail
  obtain ⟨b, hb⟩ := ht.exists_leads hc.stands.flat true
  exact ⟨b, hc.stands.standard, hc.stands.tip, hc.isNode, hc.stands.acyclic,
    ⟨n, hc.parent, hc.name_eq.symm ▸ hc.held⟩, hl, hb⟩

/-- An object gets parentheses where it would print the first terminal of a statement or of a body. -/
theorem Child.decide_object (hc : Child h p n c name outer .object) (hl : p.leads h false = .ok true) :
    ∃ r, p.decide h false = .ok ⟨true, r⟩ := by
  have hk : h.kind (some c) = .objectExpression := (holds_node hc.holds).kind
  obtain ⟨b, hf⟩ := hc.front hl
  exact hf.decide_restricted (by simp [mayLead, hk]) (.inl hk)

/-- What prints the first terminal of a statement or of a body does not begin with a brace. -/
theorem head_ne_lbrace : ∀ (e : Expr) {p : Path} {n c : NodeId} {name : Value} {outer : Expr} {ts : List Terminal},
    Child h p n c name outer e → p.leads h false = .ok true → print h p e = .ok ts → ts.head? ≠ some .lbrace
  | .object, _, _, _, _, _, _, hc, hl, hp => by
    obtain ⟨r, hr⟩ := hc.decide_object hl
    rw [print, enclose, hr] at hp
    cases hp
    simp
  | .binary op l r, _, _, _, _, _, _, hc, hl, hp => by
    obtain ⟨m, hm, -, -, hleft, -⟩ := hc.holds
    cases hm.value
    obtain ⟨c', hc', hl'⟩ := hc.leftmost (leftmostSlot_binary hm.kind) (by decide) hleft hl
    rw [print] at hp
    obtain ⟨ls, hls, hp⟩ := bind_eq_ok hp
    obtain ⟨rs, -, hp⟩ := bind_eq_ok hp
    exact head_enclose hp (head_append (head_ne_lbrace l hc' hl' hls) (by simp))
  | .conditional t a b, _, _, _, _, _, _, hc, hl, hp => by
    obtain ⟨m, hm, ht, -⟩ := hc.holds
    cases hm.value
    obtain ⟨c', hc', hl'⟩ := hc.leftmost (by simp [leftmostSlot?, hm.kind]) (by decide) ht hl
    rw [print] at hp
    obtain ⟨ts, hts, hp⟩ := bind_eq_ok hp
    obtain ⟨cs, -, hp⟩ := bind_eq_ok hp
    obtain ⟨as, -, hp⟩ := bind_eq_ok hp
    rw [List.append_assoc] at hp
    exact head_enclose hp (head_append (head_ne_lbrace t hc' hl' hts) (by simp))
  | .assignment op t v, _, _, _, _, _, _, hc, hl, hp => by
    obtain ⟨m, hm, -, -, -, ht, -⟩ := hc.holds
    cases hm.value
    obtain ⟨c', hc', hl'⟩ := hc.leftmost (by simp [leftmostSlot?, hm.kind]) (by decide) ht hl
    rw [print] at hp
    obtain ⟨ts, hts, hp⟩ := bind_eq_ok hp
    obtain ⟨vs, -, hp⟩ := bind_eq_ok hp
    exact head_enclose hp (head_append (head_ne_lbrace t hc' hl' hts) (by simp))
  | .call e as, _, _, _, _, _, _, hc, hl, hp => by
    obtain ⟨m, l, hm, he, -⟩ := hc.holds
    cases hm.value
    obtain ⟨c', hc', hl'⟩ := hc.leftmost (by simp [leftmostSlot?, hm.kind]) (by decide) he hl
    rw [print] at hp
    obtain ⟨ts, hts, hp⟩ := bind_eq_ok hp
    obtain ⟨us, -, hp⟩ := bind_eq_ok hp
    rw [List.append_assoc] at hp
    exact head_enclose hp (head_append (head_ne_lbrace e hc' hl' hts) (by simp))
  | .dotted o s, _, _, _, _, _, _, hc, hl, hp => by
    obtain ⟨m, hm, -, ho, -⟩ := hc.holds
    cases hm.value
    obtain ⟨c', hc', hl'⟩ := hc.leftmost (by simp [leftmostSlot?, hm.kind]) (by decide) ho hl
    rw [print] at hp
    obtain ⟨ts, hts, hp⟩ := bind_eq_ok hp
    obtain ⟨us, -, hp⟩ := bind_eq_ok hp
    exact head_enclose hp (head_append (head_ne_lbrace o hc' hl' hts) (by simp))
  | .computed o i, _, _, _, _, _, _, hc, hl, hp => by
    obtain ⟨m, hm, -, ho, -⟩ := hc.holds
    cases hm.value
    obtain ⟨c', hc', hl'⟩ := hc.leftmost (by simp [leftmostSlot?, hm.kind]) (by decide) ho hl
    rw [print] at hp
    obtain ⟨ts, hts, hp⟩ := bind_eq_ok hp
    obtain ⟨us, -, hp⟩ := bind_eq_ok hp
    rw [List.append_assoc] at hp
    exact head_enclose hp (head_append (head_ne_lbrace o hc' hl' hts) (by simp))
  | .sequence es, _, _, _, _, _, _, hc, _, hp => by
    obtain ⟨r, hr⟩ := decide_sequence hc
    rw [print] at hp
    obtain ⟨us, -, hp⟩ := bind_eq_ok hp
    rw [enclose, hr] at hp
    cases hp
    simp
  | .identifier _, _, _, _, _, _, _, _, _, hp | .number _, _, _, _, _, _, _, _, _, hp
  | .function _, _, _, _, _, _, _, _, _, hp => by
    rw [print] at hp
    exact head_enclose hp (by simp)
  | .yield a, _, _, _, _, _, _, _, _, hp => by
    rw [print] at hp
    obtain ⟨ts, -, hp⟩ := bind_eq_ok hp
    exact head_enclose hp (by simp)
  | .new e as, _, _, _, _, _, _, _, _, hp => by
    rw [print] at hp
    obtain ⟨ts, -, hp⟩ := bind_eq_ok hp
    obtain ⟨us, -, hp⟩ := bind_eq_ok hp
    exact head_enclose hp (by simp)
  | .arrow names b, _, _, _, _, _, _, _, _, hp => by
    rw [print] at hp
    obtain ⟨us, -, hp⟩ := bind_eq_ok hp
    obtain ⟨ts, -, hp⟩ := bind_eq_ok hp
    exact head_enclose hp (by simp)
  | .paren e, _, _, _, _, _, _, hc, _, _ => hc.holds.elim

/-! ## Phrases -/

/-- What is printed at the path is a phrase of the category and reads as the expression. -/
def Prints (h : Heap) (p : Path) (e : Expr) (cat : Category) : Prop :=
  ∃ ts t, print h p e = .ok ts ∧ Derives cat ts t ∧ t.bare = e

/-- What is printed at the path, parentheses apart, is a phrase of the expression's own category and reads as the
expression. -/
def Spells (h : Heap) (p : Path) (e : Expr) : Prop :=
  ∃ us t, print h p e = enclose h p us ∧ Derives e.home us t ∧ t.bare = e

/-- What spells itself prints as a phrase of every category that its slot takes. -/
theorem Spells.prints {v : Value} (hs : Spells h p inner) (he : h.Holds v inner) (hf : Fits h p inner cat)
    (hw : Within .primary cat) : Prints h p inner cat := by
  obtain ⟨us, t, hp, hd, hb⟩ := hs
  obtain ⟨⟨parens, r⟩, hv, hfit⟩ := hf
  rw [enclose, hv] at hp
  cases parens with
  | false => exact ⟨us, t, hp, hfit rfl us t hd, hb⟩
  | true => exact ⟨_, .paren t, hp, hw _ _ (.paren (home_within_expression he us t hd)), hb⟩

theorem isTarget_bare : ∀ e : Expr, e.bare.isTarget = e.isTarget
  | .paren e => by rw [Expr.bare, Expr.isTarget, isTarget_bare e]
  | .identifier _ | .number _ | .object | .function _ | .binary _ _ _ | .conditional _ _ _ | .assignment _ _ _
  | .yield _ | .call _ _ | .new _ _ | .dotted _ _ | .computed _ _ | .sequence _ | .arrow _ _ => by
    simp [Expr.bare, Expr.isTarget]

theorem length_bareAll : ∀ es : List Expr, (Expr.bareAll es).length = es.length
  | [] => rfl
  | _ :: es => congrArg (· + 1) (length_bareAll es)

/-- An identifier is printed as it is. -/
theorem enclose_identifier {s : String} (hc : Child h p n c name outer (.identifier s)) :
    enclose h p [.identifier s] = .ok [.identifier s] := by
  rw [enclose, hc.nested.decide_identifier rfl]
  rfl

theorem printNames_eq {l : ListId} {k : String} (hs : Stands h p (.node n)) (ho : h.Holds (.node n) outer)
    (hk : IsField k) (hl : h.get n k = .list l) : ∀ (names : List String) (i : Nat),
    h.AreNames ((h.list l).drop i) names →
    printNames h (p.down h (.str k)) i names = .ok (names.map fun s => [.identifier s])
  | [], _, _ => rfl
  | s :: names, i, hn => by
    cases hd : (h.list l).drop i with
    | nil =>
      rw [hd] at hn
      exact hn.elim
    | cons v rest =>
      obtain ⟨hi, hrest⟩ := drop_eq_cons hd
      rw [hd] at hn
      obtain ⟨c, rfl, hc⟩ := hs.element ho hk hl hi (show h.Holds v (.identifier s) from hn.1)
      have ih := printNames_eq hs ho hk hl names (i + 1) (hrest ▸ hn.2)
      rw [printNames, enclose_identifier hc, ih]
      rfl

/-- The expression in a field prints as a phrase of the category that the slot takes. -/
theorem prints_field {k : String} (hs : Stands h p (.node n)) (ho : h.Holds (.node n) outer) (hk : IsField k)
    (hi : h.Holds (h.get n k) inner)
    (ih : ∀ {q : Path} {m : NodeId}, Stands h q (.node m) → h.Holds (.node m) inner → Spells h q inner)
    (hfit : ∀ {c : NodeId}, Child h (p.down h (.str k)) n c (.str k) outer inner →
      Fits h (p.down h (.str k)) inner cat)
    (hw : Within .primary cat) : Prints h (p.down h (.str k)) inner cat := by
  obtain ⟨c, -, hc⟩ := hs.field ho hk hi
  exact (ih hc.stands hc.holds).prints hc.holds (hfit hc) hw

theorem within_primary_call : Within .primary .call := within_primary_member.trans within_member_call

theorem within_primary_assignment : Within .primary .assignment := within_primary_call.trans within_call_assignment

/-- The body of an arrow function does not begin with a brace. -/
theorem head_body {names : List String} {b : Expr} {ts : List Terminal} (hs : Stands h p (.node n))
    (ho : h.Holds (.node n) (.arrow names b)) (hb : h.Holds (h.get n "body") b)
    (hp : print h (p.down h (.str "body")) b = .ok ts) : ts.head? ≠ some .lbrace := by
  obtain ⟨c, hget, hc⟩ := hs.field ho (by decide) hb
  obtain ⟨rest, hstack⟩ := hs.tip
  have hn : p.grammar.isNode h (.node n) = true := hs.standard ▸ (holds_isPart ho).isNode
  have hn' : p.grammar.isNode h (.node c) = true := by simpa using hc.isNode
  refine head_ne_lbrace b hc ?_ hp
  rw [leads_field hstack hn hn' hget, passage_body (holds_node ho).kind hget]
  rfl

mutual

/-- Every expression spells itself. -/
theorem spells : ∀ (e : Expr) {p : Path} {n : NodeId}, Stands h p (.node n) → h.Holds (.node n) e → Spells h p e
  | .identifier s, _, _, _, _ => ⟨_, _, rfl, .identifier s, rfl⟩
  | .number x, _, _, _, _ => ⟨_, _, rfl, .number x, rfl⟩
  | .object, _, _, _, _ => ⟨_, _, rfl, .object, rfl⟩
  | .function m, _, _, _, _ => ⟨_, _, rfl, .function m, rfl⟩
  | .binary op l r, p, n, hs, he => by
    obtain ⟨m, hm, -, htier, hl, hr⟩ := id he
    cases hm.value
    obtain ⟨k, hk⟩ := Option.isSome_iff_exists.1 htier
    obtain ⟨ls, tl, hls, hdl, hbl⟩ := prints_field hs he (by decide) hl (spells l) (fun hc => fits_left hc hk)
      (within_primary_call.trans (within_call_left (tier_le hk)))
    obtain ⟨rs, tr, hrs, hdr, hbr⟩ := prints_field hs he (by decide) hr (spells r) (fun hc => fits_right hc hk)
      (within_primary_call.trans (within_call_right (tier_le hk)))
    refine ⟨ls ++ .operator op :: rs, .binary op tl tr, ?_, derives_binary hk hdl hdr, ?_⟩
    · rw [print, hls, hrs]
      rfl
    · rw [Expr.bare, hbl, hbr]
  | .conditional t a b, p, n, hs, he => by
    obtain ⟨m, hm, ht, ha, hb⟩ := id he
    cases hm.value
    obtain ⟨ts, tt, hts, hdt, hbt⟩ := prints_field hs he (by decide) ht (spells t) fits_test
      (within_primary_call.trans within_call_shortCircuit)
    obtain ⟨as, ta, has, hda, hba⟩ := prints_field hs he (by decide) ha (spells a)
      (fun hc => fits_loose hc (.refl _)) within_primary_assignment
    obtain ⟨bs, tb, hbs, hdb, hbb⟩ := prints_field hs he (by decide) hb (spells b)
      (fun hc => fits_loose hc (.refl _)) within_primary_assignment
    refine ⟨ts ++ .question :: as ++ .colon :: bs, .conditional tt ta tb, ?_, .conditional hdt hda hdb, ?_⟩
    · rw [print, hts, has, hbs]
      rfl
    · rw [Expr.bare, hbt, hba, hbb]
  | .assignment op t v, p, n, hs, he => by
    obtain ⟨m, hm, -, hop, htarget, ht, hv⟩ := id he
    cases hm.value
    obtain ⟨ts, tt, hts, hdt, hbt⟩ := prints_field hs he (by decide) ht (spells t)
      (fun hc => fits_target hc htarget) within_primary_call
    obtain ⟨vs, tv, hvs, hdv, hbv⟩ := prints_field hs he (by decide) hv (spells v)
      (fun hc => fits_loose hc (.refl _)) within_primary_assignment
    have htt : tt.isTarget = true := by rw [← isTarget_bare, hbt, htarget]
    refine ⟨ts ++ .operator op :: vs, .assignment op tt tv, ?_, .assignment htt hop hdt hdv, ?_⟩
    · rw [print, hts, hvs]
      rfl
    · rw [Expr.bare, hbt, hbv]
  | .yield a, p, n, hs, he => by
    obtain ⟨m, hm, ha⟩ := id he
    cases hm.value
    obtain ⟨ts, ta, hts, hda, hba⟩ := prints_field hs he (by decide) ha (spells a)
      (fun hc => fits_loose hc (.refl _)) within_primary_assignment
    refine ⟨.yield :: ts, .yield ta, ?_, .yield hda, ?_⟩
    · rw [print, hts]
      rfl
    · rw [Expr.bare, hba]
  | .call c as, p, n, hs, he => by
    obtain ⟨m, l, hm, hc, hl, has⟩ := id he
    cases hm.value
    obtain ⟨ts, tc, hts, hdc, hbc⟩ := prints_field hs he (by decide) hc (spells c) fits_callee within_primary_call
    obtain ⟨args, hargs, hda, hba⟩ := prints_items as hs he (by decide) hl 0 has
    refine ⟨_, .call tc (args.map Prod.snd), ?_, .call hdc hda, ?_⟩
    · rw [print, hts, hargs]
      rfl
    · rw [Expr.bare, hbc, hba]
  | .new c as, p, n, hs, he => by
    obtain ⟨m, l, hm, hc, hl, has⟩ := id he
    cases hm.value
    obtain ⟨ts, tc, hts, hdc, hbc⟩ :=
      prints_field hs he (by decide) hc (spells c) fits_newCallee within_primary_member
    obtain ⟨args, hargs, hda, hba⟩ := prints_items as hs he (by decide) hl 0 has
    refine ⟨_, .new tc (args.map Prod.snd), ?_, .new hdc hda, ?_⟩
    · rw [print, hts, hargs]
      rfl
    · rw [Expr.bare, hbc, hba]
  | .dotted o s, p, n, hs, he => by
    obtain ⟨m, hm, -, ho, hp⟩ := id he
    cases hm.value
    obtain ⟨ts, tr, hts, hdo, hbo⟩ := prints_field hs he (by decide) ho (spells o) (fun hc => fits_object hc rfl)
      (by split; exacts [within_primary_call, within_primary_member])
    obtain ⟨c, -, hc⟩ := hs.field he (by decide) (show h.Holds (h.get n "property") (.identifier s) from hp)
    refine ⟨ts ++ [.dot, .identifier s], .dotted tr s, ?_, ?_, ?_⟩
    · rw [print, hts, enclose_identifier hc]
      rfl
    · rw [Expr.home]
      split at hdo
      · rw [if_pos ‹_›]
        exact .callDotted s hdo
      · rw [if_neg ‹_›]
        exact .memberDotted s hdo
    · rw [Expr.bare, hbo]
  | .computed o i, p, n, hs, he => by
    obtain ⟨m, hm, -, ho, hp⟩ := id he
    cases hm.value
    obtain ⟨ts, tr, hts, hdo, hbo⟩ := prints_field hs he (by decide) ho (spells o) (fun hc => fits_object hc rfl)
      (by split; exacts [within_primary_call, within_primary_member])
    obtain ⟨us, ti, hus, hdi, hbi⟩ := prints_field hs he (by decide) hp (spells i)
      (fun hc => fits_loose hc fun _ _ => .ofAssignment) (within_primary_assignment.trans fun _ _ => .ofAssignment)
    refine ⟨ts ++ .lbracket :: us ++ [.rbracket], .computed tr ti, ?_, ?_, ?_⟩
    · rw [print, hts, hus]
      rfl
    · rw [Expr.home]
      split at hdo
      · rw [if_pos ‹_›]
        exact .callComputed hdo hdi
      · rw [if_neg ‹_›]
        exact .memberComputed hdo hdi
    · rw [Expr.bare, hbo, hbi]
  | .sequence es, p, n, hs, he => by
    obtain ⟨m, l, hm, hl, hlen, hes⟩ := id he
    cases hm.value
    obtain ⟨items, hitems, hdi, hbi⟩ := prints_items es hs he (by decide) hl 0 hes
    refine ⟨_, .sequence (items.map Prod.snd), ?_, .sequence ?_ hdi, ?_⟩
    · rw [print, hitems]
      rfl
    · rwa [← hbi, length_bareAll, List.length_map] at hlen
    · rw [Expr.bare, hbi]
  | .arrow names b, p, n, hs, he => by
    obtain ⟨m, l, hm, hl, hnames, hb⟩ := id he
    cases hm.value
    have hps := printNames_eq hs he (by decide) hl names 0 hnames
    obtain ⟨ts, tb, hts, hdb, hbb⟩ := prints_field hs he (by decide) hb (spells b)
      (fun hc => fits_loose hc (.refl _)) within_primary_assignment
    refine ⟨.lparen :: params names ++ .rparen :: .arrow :: ts, .arrow names tb, ?_,
      .arrow (head_body hs he hb hts) hdb, ?_⟩
    · rw [print, hps, hts]
      rfl
    · rw [Expr.bare, hbb]
  | .paren _, _, _, _, he => he.elim

/-- The elements of a list print as phrases that need no parentheses between commas. -/
theorem prints_items : ∀ (es : List Expr) {p : Path} {n : NodeId} {l : ListId} {k : String} {outer : Expr},
    Stands h p (.node n) → h.Holds (.node n) outer → IsField k → h.get n k = .list l →
    ∀ i, h.HoldsAll ((h.list l).drop i) es →
    ∃ args : List (List Terminal × Expr), printItems h (p.down h (.str k)) i es = .ok (args.map Prod.fst) ∧
      (∀ a ∈ args, Derives .assignment a.1 a.2) ∧ Expr.bareAll (args.map Prod.snd) = es
  | [], _, _, _, _, _, _, _, _, _, _, _ => ⟨[], rfl, by simp, rfl⟩
  | e :: es, p, n, l, k, outer, hs, ho, hk, hl, i, hes => by
    cases hd : (h.list l).drop i with
    | nil =>
      rw [hd] at hes
      exact hes.elim
    | cons v rest =>
      obtain ⟨hi, hrest⟩ := drop_eq_cons hd
      rw [hd] at hes
      obtain ⟨c, rfl, hc⟩ := hs.element ho hk hl hi hes.1
      obtain ⟨ts, t, hts, hdt, hbt⟩ := (spells e hc.stands hc.holds).prints hc.holds (fits_loose hc (.refl _))
        within_primary_assignment
      obtain ⟨args, hargs, hda, hba⟩ := prints_items es hs ho hk hl (i + 1) (hrest ▸ hes.2)
      refine ⟨(ts, t) :: args, ?_, List.forall_mem_cons.2 ⟨hdt, hda⟩, ?_⟩
      · rw [printItems, hts, hargs]
        rfl
      · rw [List.map_cons, Expr.bareAll, hbt, hba]

end

/-! ## The whole expression -/

/-- **Printing keeps the meaning.** What is printed for an expression is a phrase of the grammar, and there is only one
tree that it spells: the expression, with parentheses where they were printed. -/
theorem print_unambiguous (h : Heap) (root : NodeId) (e : Expr) (he : h.Holds (.node root) e)
    (ha : h.Acyclic (.node root)) :
    ∃ ts t, print h (Path.new (.node root)) e = .ok ts ∧ t.bare = e ∧ Derives .expression ts t ∧
      ∀ t', Derives .expression ts t' → t' = t := by
  obtain ⟨ts, t, hp, hd, hb⟩ := spells e (stands_new (holds_isPart he) ha) he
  rw [enclose, (holds_isPart he).decide_root] at hp
  have hd' := home_within_expression he ts t hd
  exact ⟨ts, t, hp, hb, hd', fun t' ht' => ht'.unique hd'⟩

/-- The nodes of `(a ?? b) || c`, the last being the whole. -/
def mixedChoice : Heap where
  nodes := #[
    { tag := "Identifier", fields := .ofEntries [("name", .str "a")] },
    { tag := "Identifier", fields := .ofEntries [("name", .str "b")] },
    { tag := "Identifier", fields := .ofEntries [("name", .str "c")] },
    { tag := "LogicalExpression"
      fields := .ofEntries [("operator", .str "??"), ("left", .node ⟨0⟩), ("right", .node ⟨1⟩)] },
    { tag := "LogicalExpression"
      fields := .ofEntries [("operator", .str "||"), ("left", .node ⟨3⟩), ("right", .node ⟨2⟩)] }]

theorem print_unambiguous_mixedChoice :
    ∃ ts t, print mixedChoice (Path.new (.node ⟨4⟩))
        (.binary "||" (.binary "??" (.identifier "a") (.identifier "b")) (.identifier "c")) = .ok ts ∧
      t.bare = .binary "||" (.binary "??" (.identifier "a") (.identifier "b")) (.identifier "c") ∧
      Derives .expression ts t ∧ ∀ t', Derives .expression ts t' → t' = t := by
  refine print_unambiguous mixedChoice ⟨4⟩ _ ?_ ?_
  · refine ⟨⟨4⟩, ⟨rfl, by decide, by decide⟩, by decide, by decide, ?_, ?_⟩
    · refine ⟨⟨3⟩, ⟨rfl, by decide, by decide⟩, by decide, by decide, ?_, ?_⟩
      · exact ⟨⟨0⟩, ⟨rfl, by decide, by decide⟩, by decide⟩
      · exact ⟨⟨1⟩, ⟨rfl, by decide, by decide⟩, by decide⟩
    · exact ⟨⟨2⟩, ⟨rfl, by decide, by decide⟩, by decide⟩
  · exact Heap.acyclic_of_measure Heap.nodePlace (by decide) (by decide) _

example : (print mixedChoice (Path.new (.node ⟨4⟩))
    (.binary "||" (.binary "??" (.identifier "a") (.identifier "b")) (.identifier "c"))).toOption =
      some [.lparen, .identifier "a", .operator "??", .identifier "b", .rparen, .operator "||", .identifier "c"] := by
  decide

end Bracketing.Printing
