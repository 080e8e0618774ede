import Bracketing.Proofs.Printing.OperandReader
import Bracketing.Proofs.Printing.Slot

/-!
# Prefix operators keep their scope

`printOp` writes an expression with prefix operators as terminals, with parentheses exactly where the verdicts ask for
them. The verdicts treat the two sorts of prefix operators differently. An operator such as `-` or `typeof` has
parentheses around an operand with a binary operator, and gets some as the object of a member access, but never as a
callee. `await` has no parentheses around a binary operator, and gets some in every place but those of a whole
expression (`OpExpr.scopes`).

* **Slots** (`fits_operand`, `fits_tier`, `fits_opObject`, …): an expression that gets no parentheses in a slot is of a
  category that the slot takes.
* **Phrases** (`spellsOp`): by induction on the expression, what is printed for a node is a phrase of the node's own
  category.
* **One reading** (`printOp_injective`): so different expressions print differently, if none of them has a prefix
  operator other than `await` as a callee. With one they need not, and an operand of `await` is written without the
  parentheses that keep it one (`printOp_loses_scope`).
-/

namespace Bracketing

open Bracketing.Tree

namespace Printing

/-! ## Printing -/

mutual

/-- The terminals of the expression at the tip of a path. -/
def printOp (h : Heap) (p : Path) : OpExpr → Except Stop (List Terminal)
  | .identifier s => enclose h p [.identifier s]
  | .binary op l r => do
    let ls ← printOp h (p.down h (.str "left")) l
    let rs ← printOp h (p.down h (.str "right")) r
    enclose h p (ls ++ .operator op :: rs)
  | .unary op e => do
    let ts ← printOp h (p.down h (.str "argument")) e
    enclose h p (.operator op :: ts)
  | .await e => do
    let ts ← printOp h (p.down h (.str "argument")) e
    enclose h p (.operator "await" :: ts)
  | .call c as => do
    let ts ← printOp h (p.down h (.str "callee")) c
    let us ← printOps h (p.down h (.str "arguments")) 0 as
    enclose h p (ts ++ .lparen :: separated us ++ [.rparen])
  | .new c as => do
    let ts ← printOp h (p.down h (.str "callee")) c
    let us ← printOps h (p.down h (.str "arguments")) 0 as
    enclose h p (.new :: ts ++ .lparen :: separated us ++ [.rparen])
  | .dotted o s => do
    let ts ← printOp h (p.down h (.str "object")) o
    let us ← enclose h (p.down h (.str "property")) [.identifier s]
    enclose h p (ts ++ .dot :: us)
  | .computed o i => do
    let ts ← printOp h (p.down h (.str "object")) o
    let us ← printOp h (p.down h (.str "property")) i
    enclose h p (ts ++ .lbracket :: us ++ [.rbracket])

/-- The terminals of expressions at the elements of the list at the tip of a path, from an index on. -/
def printOps (h : Heap) (p : Path) (i : Nat) : List OpExpr → Except Stop (List (List Terminal))
  | [] => .ok []
  | e :: es => do
    let ts ← printOp h (p.down h (.index i)) e
    return ts :: (← printOps h p (i + 1) es)

end

namespace OpExpr

/-- The kind of the node of an expression. -/
def kind : OpExpr → Kind
  | identifier _ => .identifier
  | binary op _ _ => Heap.binaryKind op
  | unary _ _ => .unary
  | await _ => .await
  | call _ _ => .call
  | new _ _ => .new
  | dotted _ _ | computed _ _ => .member

/-- The expression is a prefix operator other than `await`. -/
def isUnary : OpExpr → Bool
  | unary _ _ => true
  | _ => false

mutual

/-- No callee in the expression is a prefix operator other than `await`. -/
def plainCallees : OpExpr → Bool
  | identifier _ => true
  | binary _ l r => l.plainCallees && r.plainCallees
  | unary _ e | await e => e.plainCallees
  | call c as | new c as => !c.isUnary && c.plainCallees && allPlainCallees as
  | dotted o _ => o.plainCallees
  | computed o i => o.plainCallees && i.plainCallees

/-- No callee in the expressions is a prefix operator other than `await`. -/
def allPlainCallees : List OpExpr → Bool
  | [] => true
  | e :: es => e.plainCallees && allPlainCallees es

end

/-- The verdict on an expression in a slot of another, where it bears on the scope of a prefix operator: on a prefix
operator as an object or a callee, and on a binary operator as the operand of a prefix operator. -/
def scopes (outer : OpExpr) (slot : String) (inner : OpExpr) : Option Bool :=
  match outer, inner with
  | dotted _ _, unary _ _ | dotted _ _, await _ | computed _ _, unary _ _ | computed _ _, await _ =>
    if slot = "object" then some true else none
  | call _ _, await _ | new _ _, await _ => if slot = "callee" then some true else none
  | call _ _, unary _ _ | new _ _, unary _ _ => if slot = "callee" then some false else none
  | unary _ _, binary _ _ _ => some true
  | await _, binary _ _ _ => some false
  | _, _ => none

end OpExpr

end Printing

namespace Tree.Heap

open Printing

mutual

/-- The value is an expression. Binary operators are those that have a tier, prefix operators stand before their
operands, and no node is marked as having stood in parentheses. -/
def HoldsOp (h : Heap) (v : Value) : OpExpr → Prop
  | .identifier s => h.IsName v s
  | .binary op l r => ∃ n, h.IsBare v (binaryKind op) n ∧ h.get n "operator" = .str op ∧
      (Operator.tier? op).isSome ∧ h.HoldsOp (h.get n "left") l ∧ h.HoldsOp (h.get n "right") r
  | .unary op e => ∃ n, h.IsBare v .unary n ∧ h.get n "operator" = .str op ∧ op ≠ "await" ∧
      h.flagAt n "prefix" = true ∧ h.HoldsOp (h.get n "argument") e
  | .await e => ∃ n, h.IsBare v .await n ∧ h.HoldsOp (h.get n "argument") e
  | .call c as => ∃ n l, h.IsBare v .call n ∧ h.HoldsOp (h.get n "callee") c ∧ h.get n "arguments" = .list l ∧
      h.HoldsOps (h.list l) as
  | .new c as => ∃ n l, h.IsBare v .new n ∧ h.HoldsOp (h.get n "callee") c ∧ h.get n "arguments" = .list l ∧
      h.HoldsOps (h.list l) as
  | .dotted o s => ∃ n, h.IsBare v .member n ∧ h.flagAt n "computed" = false ∧ h.HoldsOp (h.get n "object") o ∧
      h.IsName (h.get n "property") s
  | .computed o i => ∃ n, h.IsBare v .member n ∧ h.flagAt n "computed" = true ∧ h.HoldsOp (h.get n "object") o ∧
      h.HoldsOp (h.get n "property") i

/-- The values are expressions. -/
def HoldsOps (h : Heap) : List Value → List OpExpr → Prop
  | [], [] => True
  | v :: vs, e :: es => h.HoldsOp v e ∧ h.HoldsOps vs es
  | _, _ => False

end

end Tree.Heap

namespace Printing

variable {h : Heap} {p : Path} {n c : NodeId} {name : Value} {outer : Kind} {inner e : OpExpr} {lev : OpLevel}
  {ts : List Terminal}

/-! ## Nodes of expressions -/

theorem OpExpr.kind_mem : ∀ e : OpExpr, e.kind ∈ expressionKinds ∧ e.kind ≠ .sequence ∧ e.kind ≠ .assignment
  | binary op _ _ => by rcases binaryKind_eq op with hk | hk <;> simp [kind, hk, expressionKinds]
  | identifier _ | unary _ _ | await _ | call _ _ | new _ _ | dotted _ _ | computed _ _ => by
    simp [kind, expressionKinds]

/-- The value of an expression is a node of its kind. -/
theorem holdsOp_isBare {v : Value} (he : h.HoldsOp v e) : ∃ n, h.IsBare v e.kind n := by
  cases e with
  | identifier | binary | unary | await | dotted | computed =>
    obtain ⟨n, hn, -⟩ := he
    exact ⟨n, hn⟩
  | call | new =>
    obtain ⟨n, l, hn, -⟩ := he
    exact ⟨n, hn⟩

theorem holdsOp_isPart (he : h.HoldsOp (.node n) e) : IsPart h n e.kind := by
  obtain ⟨m, hm⟩ := holdsOp_isBare he
  cases hm.value
  obtain ⟨hmem, hseq, hassign⟩ := e.kind_mem
  refine ⟨hm, hmem, ?_, ?_⟩
  · intro hk
    exact absurd (hm.kind.symm.trans hk) hseq
  · intro hp
    exact hassign (hm.kind.symm.trans hp.1)

/-! ## Categories of expressions -/

/-- The expression begins with a call. -/
def OpExpr.beginsWithCall : OpExpr → Bool
  | call _ _ => true
  | dotted o _ | computed o _ => o.beginsWithCall
  | _ => false

/-- The category of an expression without parentheses around it. -/
def OpExpr.home : OpExpr → OpLevel
  | identifier _ | new _ _ => .operand false
  | call _ _ => .operand true
  | dotted o _ | computed o _ => .operand o.beginsWithCall
  | unary _ _ => .unary
  | binary op _ _ => .tier ((Operator.tier? op).getD 0)
  -- nothing around its operand says where it ends
  | await _ => .expression

theorem OpPhrase.calls {b : Bool} (hp : OpPhrase (.operand b) ts e) : OpPhrase (.operand true) ts e := by
  cases b with
  | false => exact .ofCallless hp
  | true => exact hp

/-- Operands are phrases of every looser category. -/
theorem OpPhrase.tier_of_operand {b : Bool} (hp : OpPhrase (.operand b) ts e) (k : Nat) : OpPhrase (.tier k) ts e :=
  .ofUnary k (.ofOperand hp.calls)

theorem OpPhrase.lift (hp : OpPhrase (.operand false) ts e) : ∀ lev, OpPhrase lev ts e
  | .expression => .ofTier (hp.tier_of_operand 0)
  | .tier k => hp.tier_of_operand k
  | .unary => .ofOperand hp.calls
  | .operand false => hp
  | .operand true => hp.calls

theorem OpPhrase.tier_mono {j k : Nat} (hjk : j ≤ k) (hp : OpPhrase (.tier k) ts e) : OpPhrase (.tier j) ts e := by
  cases hp with
  | ofUnary _ hp => exact .ofUnary j hp
  | binary hop hk hl hr => exact .binary hop (by omega) hl hr

/-- An expression is an operand, a prefix operator or a binary operator. -/
theorem OpExpr.home_cases : ∀ e : OpExpr, e.home = .operand e.beginsWithCall ∨ (∃ op x, e = unary op x) ∨
    (∃ x, e = await x) ∨ ∃ op l r, e = binary op l r
  | identifier _ | call _ _ | new _ _ | dotted _ _ | computed _ _ => .inl rfl
  | unary op x => .inr (.inl ⟨op, x, rfl⟩)
  | await x => .inr (.inr (.inl ⟨x, rfl⟩))
  | binary op l r => .inr (.inr (.inr ⟨op, l, r, rfl⟩))

/-- Every phrase of an expression's own category is an expression. -/
theorem OpExpr.home_expression (hp : OpPhrase e.home ts e) : OpPhrase .expression ts e := by
  rcases e.home_cases with hhome | ⟨op, x, rfl⟩ | ⟨x, rfl⟩ | ⟨op, l, r, rfl⟩
  · rw [hhome] at hp
    exact .ofTier (hp.tier_of_operand 0)
  · exact .ofTier (.ofUnary 0 hp)
  · exact hp
  · exact .ofTier (hp.tier_mono (Nat.zero_le _))

/-! ## Verdicts on prefix operators -/

theorem byKind_unary {s : Site} (hk : s.kind = .unary) (g : Option NodeId) : s.byKind g =
    .ok (some ((s.parentKind.isBinary && s.parentOperator = "**" && s.fills "left") || s.isObject)) := by
  unfold Site.byKind
  rw [hk]

namespace Nested

/-- `await` gets parentheses in tight sites. -/
theorem decide_await (hc : Nested h p n c name outer .await) (ht : Tight ⟨h, c, n, name⟩) :
    ∃ r, p.decide h false = .ok ⟨true, r⟩ := by
  have hk : (⟨h, c, n, name⟩ : Site).kind = .await := hc.inside.bare.kind
  exact hc.decide_of_byKind (by decide) (byKind_operator (.inr (.inr (.inr hk))) ht)

/-- The other prefix operators get parentheses as objects. -/
theorem decide_unary_object (hc : Nested h p n c (.str "object") .member .unary) :
    ∃ r, p.decide h false = .ok ⟨true, r⟩ := by
  have hk : (⟨h, c, n, .str "object"⟩ : Site).kind = .unary := hc.inside.bare.kind
  have hpk : (⟨h, c, n, .str "object"⟩ : Site).parentKind = .member := hc.around.bare.kind
  refine hc.decide_of_byKind (by decide) fun g => ?_
  rw [byKind_unary hk]
  simp [Site.isObject, hpk, hc.fills]

/-- They get none as callees. -/
theorem decide_unary_callee (hc : Nested h p n c name outer .unary) (ho : outer.isCallLike = true) :
    ∃ r, p.decide h false = .ok ⟨false, r⟩ := by
  have hk : (⟨h, c, n, name⟩ : Site).kind = .unary := hc.inside.bare.kind
  have hpk : (⟨h, c, n, name⟩ : Site).parentKind = outer := hc.around.bare.kind
  have hno : outer.isBinary = false ∧ outer ≠ .member := by
    rcases (by simpa [Kind.isCallLike] using ho : outer = .call ∨ outer = .new) with rfl | rfl <;> decide
  refine hc.decide_of_byKind (by decide) fun g => ?_
  rw [byKind_unary hk]
  simp [Site.isObject, hpk, hno]

/-- Binary operators get no parentheses after `await`. -/
theorem decide_awaited {inner : Kind} (hc : Nested h p n c name .await inner) (hb : inner.isBinary = true) :
    ∃ r, p.decide h false = .ok ⟨false, r⟩ := by
  have hk : (⟨h, c, n, name⟩ : Site).kind = inner := hc.inside.bare.kind
  have hpk : (⟨h, c, n, name⟩ : Site).parentKind = .await := hc.around.bare.kind
  refine hc.decide_of_byKind (ne_identifier_of_isBinary hb) fun g => ?_
  rw [byKind_binary (hk ▸ hb), hpk]
  rfl

theorem tight_callee (hc : Nested h p n c (.str "callee") outer inner.kind) (ho : outer.isCallLike = true) :
    Tight ⟨h, c, n, .str "callee"⟩ := by
  refine .callee ?_ hc.fills
  show (h.kind (some n)).isCallLike = true
  rw [hc.around.bare.kind]
  exact ho

theorem tight_object (hc : Nested h p n c (.str "object") .member inner.kind) : Tight ⟨h, c, n, .str "object"⟩ :=
  .object hc.around.bare.kind hc.fills

/-- The verdicts on which the scope of a prefix operator hangs. -/
theorem decide_scopes {outer : OpExpr} {k : String} {b : Bool} (hc : Nested h p n c (.str k) outer.kind inner.kind)
    (hb : outer.scopes k inner = some b) : ∃ r, p.decide h false = .ok ⟨b, r⟩ := by
  cases outer with
  | dotted | computed =>
    cases inner with
    | unary =>
      obtain ⟨rfl, rfl⟩ : k = "object" ∧ b = true := by simpa [OpExpr.scopes, eq_comm] using hb
      exact decide_unary_object hc
    | await =>
      obtain ⟨rfl, rfl⟩ : k = "object" ∧ b = true := by simpa [OpExpr.scopes, eq_comm] using hb
      exact decide_await hc hc.tight_object
    | _ => cases hb
  | call | new =>
    cases inner with
    | unary =>
      obtain ⟨rfl, rfl⟩ : k = "callee" ∧ b = false := by simpa [OpExpr.scopes, eq_comm] using hb
      exact decide_unary_callee hc rfl
    | await =>
      obtain ⟨rfl, rfl⟩ : k = "callee" ∧ b = true := by simpa [OpExpr.scopes, eq_comm] using hb
      exact decide_await hc (hc.tight_callee rfl)
    | _ => cases hb
  | unary =>
    cases inner with
    | binary op =>
      cases hb
      exact hc.decide_binary (isBinary_binaryKind op) (.inr (.inr rfl))
    | _ => cases hb
  | await =>
    cases inner with
    | binary op =>
      cases hb
      exact decide_awaited hc (isBinary_binaryKind op)
    | _ => cases hb
  | _ => cases hb

end Nested

/-! ## Slots -/

/-- The verdict at the path is such that the expression there, printed with it, is a phrase of the category. -/
def OpFits (h : Heap) (p : Path) (e : OpExpr) (lev : OpLevel) : Prop :=
  ∃ v, p.decide h false = .ok v ∧ (v.parens = false → ∀ ts, OpPhrase e.home ts e → OpPhrase lev ts e)

theorem OpFits.of_home (hc : Nested h p n c name outer inner.kind)
    (hw : ∀ ts, OpPhrase inner.home ts inner → OpPhrase lev ts inner) : OpFits h p inner lev := by
  obtain ⟨v, hv⟩ := hc.exists_decide
  exact ⟨v, hv, fun _ => hw⟩

theorem OpFits.of_operand (hc : Nested h p n c name outer inner.kind)
    (hhome : inner.home = .operand inner.beginsWithCall)
    (hw : ∀ ts, OpPhrase (.operand inner.beginsWithCall) ts inner → OpPhrase lev ts inner) : OpFits h p inner lev :=
  .of_home hc (hhome ▸ hw)

theorem OpFits.of_parens (hd : ∃ r, p.decide h false = .ok ⟨true, r⟩) : OpFits h p inner lev := by
  obtain ⟨r, hr⟩ := hd
  exact ⟨_, hr, by simp⟩

/-- In a tight slot `await` gets parentheses. What is left are the operands, the other prefix operators and the binary
operators. -/
theorem OpFits.of_tight (hc : Nested h p n c name outer inner.kind) (ht : Tight ⟨h, c, n, name⟩)
    (hoperand : inner.home = .operand inner.beginsWithCall → OpFits h p inner lev)
    (hunary : ∀ op x, inner = .unary op x → OpFits h p inner lev)
    (hbinary : ∀ op l r, inner = .binary op l r → OpFits h p inner lev) : OpFits h p inner lev := by
  rcases inner.home_cases with hhome | ⟨op, x, rfl⟩ | ⟨x, rfl⟩ | ⟨op, l, r, rfl⟩
  · exact hoperand hhome
  · exact hunary op x rfl
  · exact .of_parens (Nested.decide_await hc ht)
  · exact hbinary op l r rfl

/-- The slot of a prefix operator. -/
theorem fits_operand (hc : Nested h p n c name .unary inner.kind) : OpFits h p inner .unary := by
  refine .of_tight hc (.unary hc.around.bare.kind) ?_ ?_ ?_
  · intro hhome
    exact .of_operand hc hhome fun ts hp => .ofOperand hp.calls
  · rintro op x rfl
    -- one prefix operator after another needs no parentheses
    exact .of_home hc fun ts hp => hp
  · rintro op l r rfl
    exact .of_parens (hc.decide_binary (isBinary_binaryKind op) (.inr (.inr rfl)))

/-- The slots of a binary operator take what binds as tightly as the slot asks. -/
theorem fits_tier {op : String} {k : Nat} (hc : Nested h p n c name (Heap.binaryKind op) inner.kind)
    (hbinary : ∀ op' l r, inner = .binary op' l r → OpFits h p inner (.tier k)) : OpFits h p inner (.tier k) := by
  have hpk : (⟨h, c, n, name⟩ : Site).parentKind = Heap.binaryKind op := hc.around.bare.kind
  refine .of_tight hc (.operand (hpk ▸ isBinary_binaryKind op)) ?_ ?_ hbinary
  · intro hhome
    exact .of_operand hc hhome fun ts hp => hp.tier_of_operand k
  · rintro op' x rfl
    exact .of_home hc fun ts hp => .ofUnary k hp

/-- A binary operator without parentheses beside another binds at least as tightly, and more tightly on the right. -/
theorem fits_binary {op op' : String} {j k : Nat} {l r : OpExpr}
    (hc : Nested h p n c name (Heap.binaryKind op) (OpExpr.binary op' l r).kind) (hop : h.get n "operator" = .str op)
    (hj : Operator.tier? op = some j) (hi : h.HoldsOp (.node c) (.binary op' l r))
    (hk : k = j ∨ k = j + 1 ∧ name = .str "right") : OpFits h p (.binary op' l r) (.tier k) := by
  obtain ⟨m, hm, hop', htier, -⟩ := hi
  cases hm.value
  obtain ⟨i, hi⟩ := Option.isSome_iff_exists.1 htier
  obtain ⟨v, hd⟩ := hc.exists_decide
  refine ⟨v, hd, fun hv ts hp => ?_⟩
  obtain ⟨-, hji, heq⟩ :=
    hc.tiers_of_bare (isBinary_binaryKind op) (isBinary_binaryKind op') hop hop' hd hv hj hi
  have hki : k ≤ i := by
    rcases hk with rfl | ⟨rfl, hright⟩
    · exact hji
    · have hne : j ≠ i := fun h => (heq h).1 hright
      omega
  rw [OpExpr.home, hi] at hp
  exact hp.tier_mono hki

/-- The callee of a call is an operand, if it is no prefix operator other than `await`. -/
theorem fits_opCallee (hc : Nested h p n c (.str "callee") .call inner.kind) (hu : inner.isUnary = false) :
    OpFits h p inner (.operand true) := by
  refine .of_tight hc (hc.tight_callee rfl) ?_ ?_ ?_
  · intro hhome
    exact .of_operand hc hhome fun ts hp => hp.calls
  · rintro op x rfl
    cases hu
  · rintro op l r rfl
    exact .of_parens (hc.decide_binary (isBinary_binaryKind op) (.inl ⟨rfl, hc.fills⟩))

/-- What begins with a call has a call below it. -/
theorem exists_call_of_begins : ∀ {e : OpExpr} {v : Value}, h.HoldsOp v e → e.beginsWithCall = true →
    (e.kind = .call ∨ e.kind = .member) ∧ ∃ m, h.Below v (.node m) ∧ h.kind (some m) = .call
  | .call c as, v, he, _ => by
    obtain ⟨m, l, hm, -⟩ := he
    exact ⟨.inl rfl, m, hm.value ▸ .refl, hm.kind⟩
  | .dotted o s, v, he, hb => by
    obtain ⟨m, hm, -, ho, -⟩ := he
    obtain ⟨m', hm'⟩ := holdsOp_isBare ho
    obtain ⟨-, i, hi, hk⟩ := exists_call_of_begins ho hb
    exact ⟨.inr rfl, i, (below_object hm.value rfl (by rw [hm'.value]; simp)).trans hi, hk⟩
  | .computed o i, v, he, hb => by
    obtain ⟨m, hm, -, ho, -⟩ := he
    obtain ⟨m', hm'⟩ := holdsOp_isBare ho
    obtain ⟨-, i, hi, hk⟩ := exists_call_of_begins ho hb
    exact ⟨.inr rfl, i, (below_object hm.value rfl (by rw [hm'.value]; simp)).trans hi, hk⟩

/-- The callee of a construction is an operand that does not begin with a call, if it is no prefix operator other than
`await`. -/
theorem fits_opNewCallee (hc : Nested h p n c (.str "callee") .new inner.kind) (hi : h.HoldsOp (.node c) inner)
    (hu : inner.isUnary = false) : OpFits h p inner (.operand false) := by
  refine .of_tight hc (hc.tight_callee rfl) ?_ ?_ ?_
  · intro hhome
    cases hb : inner.beginsWithCall with
    | true =>
      obtain ⟨hk, hcall⟩ := exists_call_of_begins hi hb
      exact .of_parens ⟨_, hc.decide_newCallee hk hcall⟩
    | false => exact .of_operand hc hhome fun ts hp => hb ▸ hp
  · rintro op x rfl
    cases hu
  · rintro op l r rfl
    exact .of_parens (hc.decide_binary (isBinary_binaryKind op) (.inl ⟨rfl, hc.fills⟩))

/-- The object of a member access begins with a call exactly if the access does. -/
theorem fits_opObject (hc : Nested h p n c (.str "object") .member inner.kind) :
    OpFits h p inner (.operand inner.beginsWithCall) := by
  refine .of_tight hc hc.tight_object ?_ ?_ ?_
  · intro hhome
    exact .of_operand hc hhome fun ts hp => hp
  · rintro op x rfl
    exact .of_parens (Nested.decide_unary_object hc)
  · rintro op l r rfl
    exact .of_parens (hc.decide_binary (isBinary_binaryKind op) (.inr (.inl ⟨rfl, hc.fills⟩)))

/-! ## Phrases -/

/-- What is printed at the path is a phrase of the category. -/
def OpPrints (h : Heap) (p : Path) (e : OpExpr) (lev : OpLevel) : Prop :=
  ∃ ts, printOp h p e = .ok ts ∧ OpPhrase lev ts e

/-- What is printed at the path, parentheses apart, is a phrase of the expression's own category. -/
def OpSpells (h : Heap) (p : Path) (e : OpExpr) : Prop :=
  ∃ us, printOp h p e = enclose h p us ∧ OpPhrase e.home us e

theorem OpSpells.prints (hs : OpSpells h p e) (hf : OpFits h p e lev) : OpPrints h p e lev := by
  obtain ⟨us, hp, hphrase⟩ := hs
  obtain ⟨⟨parens, r⟩, hv, hfit⟩ := hf
  rw [enclose, hv] at hp
  cases parens with
  | false => exact ⟨us, hp, hfit rfl us hphrase⟩
  | true => exact ⟨_, hp, (OpPhrase.paren (OpExpr.home_expression hphrase)).lift lev⟩

section Field

variable {k : String} {outer : OpExpr} (hs : Stands h p (.node n)) (ho : h.HoldsOp (.node n) outer) (hk : IsField k)
include hs ho hk

/-- The path to the expression in a field. -/
theorem Stands.nested_op (hi : h.HoldsOp (h.get n k) inner) : ∃ c, h.HoldsOp (.node c) inner ∧
    Nested h (p.down h (.str k)) n c (.str k) outer.kind inner.kind := by
  obtain ⟨c, hc⟩ := holdsOp_isBare hi
  have hget := hc.value
  rw [hget] at hi
  exact ⟨c, hi, hs.nested_field (holdsOp_isPart ho) hk hget (holdsOp_isPart hi)⟩

/-- The expression in a field prints as a phrase of the category that the slot takes. -/
theorem prints_opField (hi : h.HoldsOp (h.get n k) inner)
    (ih : ∀ {q : Path} {m : NodeId}, Stands h q (.node m) → h.HoldsOp (.node m) inner → OpSpells h q inner)
    (hfit : ∀ {c : NodeId}, Nested h (p.down h (.str k)) n c (.str k) outer.kind inner.kind →
      h.HoldsOp (.node c) inner → OpFits h (p.down h (.str k)) inner lev) :
    OpPrints h (p.down h (.str k)) inner lev := by
  obtain ⟨c, hc, hnest⟩ := hs.nested_op ho hk hi
  exact (ih hnest.stands hc).prints (hfit hnest hc)

/-- An identifier in a field is printed as it is. -/
theorem enclose_name {s : String} (hi : h.IsName (h.get n k) s) :
    enclose h (p.down h (.str k)) [.identifier s] = .ok [.identifier s] := by
  have hi : h.HoldsOp (h.get n k) (.identifier s) := hi
  obtain ⟨c, -, hnest⟩ := hs.nested_op ho hk hi
  rw [enclose, hnest.decide_identifier rfl]
  rfl

end Field

mutual

/-- Every expression spells itself, if no callee in it is a prefix operator other than `await`. -/
theorem spellsOp : ∀ (e : OpExpr) {p : Path} {n : NodeId}, Stands h p (.node n) → h.HoldsOp (.node n) e →
    e.plainCallees = true → OpSpells h p e
  | .identifier s, _, _, _, _, _ => ⟨_, rfl, .identifier s⟩
  | .binary op l r, p, n, hs, he, hcallees => by
    -- `he` stays whole, since the slots ask for the expression around them
    obtain ⟨m, hm, hop, htier, hl, hr⟩ := id he
    cases hm.value
    obtain ⟨j, hj⟩ := Option.isSome_iff_exists.1 htier
    simp only [OpExpr.plainCallees, Bool.and_eq_true] at hcallees
    have hleft : OpPrints h (p.down h (.str "left")) l (.tier j) := by
      refine prints_opField hs he (by decide) hl (fun hs he => spellsOp l hs he hcallees.1) fun hc hi => ?_
      refine fits_tier hc ?_
      rintro op' l' r' rfl
      exact fits_binary hc hop hj hi (.inl rfl)
    have hright : OpPrints h (p.down h (.str "right")) r (.tier (j + 1)) := by
      refine prints_opField hs he (by decide) hr (fun hs he => spellsOp r hs he hcallees.2) fun hc hi => ?_
      refine fits_tier hc ?_
      rintro op' l' r' rfl
      exact fits_binary hc hop hj hi (.inr ⟨rfl, rfl⟩)
    obtain ⟨ls, hls, hpl⟩ := hleft
    obtain ⟨rs, hrs, hpr⟩ := hright
    refine ⟨ls ++ .operator op :: rs, ?_, ?_⟩
    · rw [printOp, hls, hrs]
      rfl
    · rw [OpExpr.home, hj]
      exact .binary hj (Nat.le_refl j) hpl hpr
  | .unary op e, p, n, hs, he, hcallees => by
    obtain ⟨m, hm, -, hop, -, hi⟩ := id he
    cases hm.value
    obtain ⟨ts, hts, hp⟩ := prints_opField hs he (by decide) hi (fun hs he => spellsOp e hs he hcallees)
      fun hc _ => fits_operand hc
    refine ⟨.operator op :: ts, ?_, .unary hop hp⟩
    rw [printOp, hts]
    rfl
  | .await e, p, n, hs, he, hcallees => by
    obtain ⟨m, hm, hi⟩ := id he
    cases hm.value
    obtain ⟨ts, hts, hp⟩ := prints_opField hs he (by decide) hi (fun hs he => spellsOp e hs he hcallees)
      fun hc _ => .of_home hc fun _ => OpExpr.home_expression
    refine ⟨.operator "await" :: ts, ?_, .await hp⟩
    rw [printOp, hts]
    rfl
  | .call c as, p, n, hs, he, hcallees => by
    obtain ⟨m, l, hm, hc, hl, has⟩ := id he
    cases hm.value
    simp only [OpExpr.plainCallees, Bool.and_eq_true, Bool.not_eq_true'] at hcallees
    obtain ⟨ts, hts, hp⟩ := prints_opField hs he (by decide) hc (fun hs he => spellsOp c hs he hcallees.1.2)
      fun hn _ => fits_opCallee hn hcallees.1.1
    obtain ⟨args, hargs, hphrases, hsnd⟩ := printsOps as hs he (by decide) hl 0 has hcallees.2
    have hphrase := OpPhrase.call hp hphrases
    rw [hsnd] at hphrase
    refine ⟨_, ?_, hphrase⟩
    rw [printOp, hts, hargs]
    rfl
  | .new c as, p, n, hs, he, hcallees => by
    obtain ⟨m, l, hm, hc, hl, has⟩ := id he
    cases hm.value
    simp only [OpExpr.plainCallees, Bool.and_eq_true, Bool.not_eq_true'] at hcallees
    obtain ⟨ts, hts, hp⟩ := prints_opField hs he (by decide) hc (fun hs he => spellsOp c hs he hcallees.1.2)
      fun hn hi => fits_opNewCallee hn hi hcallees.1.1
    obtain ⟨args, hargs, hphrases, hsnd⟩ := printsOps as hs he (by decide) hl 0 has hcallees.2
    have hphrase := OpPhrase.new hp hphrases
    rw [hsnd] at hphrase
    refine ⟨_, ?_, hphrase⟩
    rw [printOp, hts, hargs]
    rfl
  | .dotted o s, p, n, hs, he, hcallees => by
    obtain ⟨m, hm, -, ho, hs'⟩ := id he
    cases hm.value
    obtain ⟨ts, hts, hp⟩ := prints_opField hs he (by decide) ho (fun hs he => spellsOp o hs he hcallees)
      fun hc _ => fits_opObject hc
    refine ⟨ts ++ [.dot, .identifier s], ?_, ?_⟩
    · rw [printOp, hts, enclose_name hs he (by decide) hs']
      rfl
    · exact OpPhrase.dotted s hp
  | .computed o i, p, n, hs, he, hcallees => by
    obtain ⟨m, hm, -, ho, hi⟩ := id he
    cases hm.value
    simp only [OpExpr.plainCallees, Bool.and_eq_true] at hcallees
    obtain ⟨ts, hts, hp⟩ := prints_opField hs he (by decide) ho (fun hs he => spellsOp o hs he hcallees.1)
      fun hc _ => fits_opObject hc
    obtain ⟨us, hus, hpi⟩ := prints_opField hs he (by decide) hi (fun hs he => spellsOp i hs he hcallees.2)
      fun hc _ => .of_home hc fun _ => OpExpr.home_expression
    refine ⟨ts ++ .lbracket :: us ++ [.rbracket], ?_, ?_⟩
    · rw [printOp, hts, hus]
      rfl
    · exact OpPhrase.computed hp hpi

/-- The elements of a list print as expressions. -/
theorem printsOps : ∀ (es : List OpExpr) {p : Path} {n : NodeId} {l : ListId} {k : String} {outer : OpExpr},
    Stands h p (.node n) → h.HoldsOp (.node n) outer → IsField k → h.get n k = .list l →
    ∀ i, h.HoldsOps ((h.list l).drop i) es → OpExpr.allPlainCallees es = true →
    ∃ args : List (List Terminal × OpExpr), printOps h (p.down h (.str k)) i es = .ok (args.map Prod.fst) ∧
      (∀ a ∈ args, OpPhrase .expression a.1 a.2) ∧ args.map Prod.snd = es
  | [], _, _, _, _, _, _, _, _, _, _, _, _ => ⟨[], rfl, by simp, rfl⟩
  | e :: es, p, n, l, k, outer, hs, ho, hk, hl, i, hes, hcallees => by
    simp only [OpExpr.allPlainCallees, Bool.and_eq_true] at hcallees
    cases hd : (h.list l).drop i with
    | nil =>
      rw [hd] at hes
      exact hes.elim
    | cons v rest =>
      obtain ⟨hi, hrest⟩ := drop_eq_cons hd
      rw [hd] at hes
      obtain ⟨c, hc⟩ := holdsOp_isBare hes.1
      obtain rfl := hc.value
      have hnest := hs.nested_element (holdsOp_isPart ho) hk hl hi (holdsOp_isPart hes.1)
      obtain ⟨ts, hts, hp⟩ := (spellsOp e hnest.stands hes.1 hcallees.1).prints
        (.of_home hnest fun _ => OpExpr.home_expression)
      obtain ⟨args, hargs, hphrases, hsnd⟩ := printsOps es hs ho hk hl (i + 1) (hrest ▸ hes.2) hcallees.2
      refine ⟨(ts, e) :: args, ?_, List.forall_mem_cons.2 ⟨hp, hphrases⟩, ?_⟩
      · rw [printOps, hts, hargs]
        rfl
      · rw [List.map_cons, hsnd]

end

/-! ## One reading -/

/-- What is printed for an expression is an expression of the grammar. -/
theorem prints_root {root : NodeId} (he : h.HoldsOp (.node root) e) (ha : h.Acyclic (.node root))
    (hc : e.plainCallees = true) : OpPrints h (Path.new (.node root)) e .expression := by
  have hpart := holdsOp_isPart he
  refine (spellsOp e (stands_new hpart ha) he hc).prints ⟨_, hpart.decide_root, ?_⟩
  intro _ ts hp
  exact OpExpr.home_expression hp

/-- **Prefix operators keep their scope.** Two expressions that are printed alike are the same, if no callee in them is
a prefix operator other than `await`. Wherever the scope of a prefix operator is at stake, the verdict is that of
`OpExpr.scopes`. -/
theorem printOp_injective (h h' : Heap) (root root' : NodeId) (e e' : OpExpr) (he : h.HoldsOp (.node root) e)
    (he' : h'.HoldsOp (.node root') e') (ha : h.Acyclic (.node root)) (ha' : h'.Acyclic (.node root'))
    (hc : e.plainCallees = true) (hc' : e'.plainCallees = true) :
    (∃ ts ts', printOp h (Path.new (.node root)) e = .ok ts ∧ printOp h' (Path.new (.node root')) e' = .ok ts' ∧
      (ts = ts' → e = e')) ∧
    ∀ p n k outer inner b, Stands h p (.node n) → IsField k → h.HoldsOp (.node n) outer →
      h.HoldsOp (h.get n k) inner → outer.scopes k inner = some b →
      ∃ r, (p.down h (.str k)).decide h false = .ok ⟨b, r⟩ := by
  refine ⟨?_, ?_⟩
  · obtain ⟨ts, hts, hp⟩ := prints_root he ha hc
    obtain ⟨ts', hts', hp'⟩ := prints_root he' ha' hc'
    refine ⟨ts, ts', hts, hts', ?_⟩
    rintro rfl
    exact hp.unique hp'
  · intro p n k outer inner b hs hk ho hi hb
    obtain ⟨c, hget, hnest⟩ := hs.nested_op ho hk hi
    exact hnest.decide_scopes hb

/-- The nodes of `(-(a + b)).c` and of `-((a + b).c)`. -/
def negatedObjects : Heap where
  nodes := #[
    { tag := "Identifier", fields := .ofEntries [("name", .str "a")] },
    { tag := "Identifier", fields := .ofEntries [("name", .str "b")] },
    { tag := "Identifier", fields := .ofEntries [("name", .str "c")] },
    { tag := "BinaryExpression"
      fields := .ofEntries [("operator", .str "+"), ("left", .node ⟨0⟩), ("right", .node ⟨1⟩)] },
    { tag := "UnaryExpression"
      fields := .ofEntries [("operator", .str "-"), ("prefix", .bool true), ("argument", .node ⟨3⟩)] },
    { tag := "MemberExpression", fields := .ofEntries [("object", .node ⟨4⟩), ("property", .node ⟨2⟩)] },
    { tag := "MemberExpression", fields := .ofEntries [("object", .node ⟨3⟩), ("property", .node ⟨2⟩)] },
    { tag := "UnaryExpression"
      fields := .ofEntries [("operator", .str "-"), ("prefix", .bool true), ("argument", .node ⟨6⟩)] }]

/-- The expression `a + b`. -/
def plainSum : OpExpr := .binary "+" (.identifier "a") (.identifier "b")

theorem holdsOp_plainSum : negatedObjects.HoldsOp (.node ⟨3⟩) plainSum := by
  refine ⟨⟨3⟩, ⟨rfl, by decide, by decide⟩, by decide, by decide, ?_, ?_⟩
  · exact ⟨⟨0⟩, ⟨rfl, by decide, by decide⟩, by decide⟩
  · exact ⟨⟨1⟩, ⟨rfl, by decide, by decide⟩, by decide⟩

theorem holdsOp_negatedSum : negatedObjects.HoldsOp (.node ⟨4⟩) (.unary "-" plainSum) :=
  ⟨⟨4⟩, ⟨rfl, by decide, by decide⟩, by decide, by decide, by decide, holdsOp_plainSum⟩

theorem holdsOp_negatedObject : negatedObjects.HoldsOp (.node ⟨5⟩) (.dotted (.unary "-" plainSum) "c") :=
  ⟨⟨5⟩, ⟨rfl, by decide, by decide⟩, by decide, holdsOp_negatedSum, ⟨2⟩, ⟨rfl, by decide, by decide⟩, by decide⟩

theorem acyclic_negatedObjects (v : Value) : negatedObjects.Acyclic v :=
  Heap.acyclic_of_measure Heap.nodePlace (by decide) (by decide) v

theorem printOp_injective_negatedObjects :
    (∃ ts ts', printOp negatedObjects (Path.new (.node ⟨5⟩)) (.dotted (.unary "-" plainSum) "c") = .ok ts ∧
      printOp negatedObjects (Path.new (.node ⟨7⟩)) (.unary "-" (.dotted plainSum "c")) = .ok ts' ∧
      (ts = ts' → OpExpr.dotted (.unary "-" plainSum) "c" = .unary "-" (.dotted plainSum "c"))) ∧
    ∃ r, ((Path.new (.node ⟨5⟩)).down negatedObjects (.str "object")).decide negatedObjects false = .ok ⟨true, r⟩ := by
  have he : negatedObjects.HoldsOp (.node ⟨7⟩) (.unary "-" (.dotted plainSum "c")) := by
    refine ⟨⟨7⟩, ⟨rfl, by decide, by decide⟩, by decide, by decide, by decide, ?_⟩
    exact ⟨⟨6⟩, ⟨rfl, by decide, by decide⟩, by decide, holdsOp_plainSum, ⟨2⟩, ⟨rfl, by decide, by decide⟩, by decide⟩
  obtain ⟨hprinted, hscopes⟩ := printOp_injective negatedObjects negatedObjects ⟨5⟩ ⟨7⟩ _ _ holdsOp_negatedObject he
    (acyclic_negatedObjects _) (acyclic_negatedObjects _) rfl rfl
  refine ⟨hprinted, hscopes _ ⟨5⟩ "object" _ _ true ?_ (by decide) holdsOp_negatedObject holdsOp_negatedSum rfl⟩
  exact stands_new (holdsOp_isPart holdsOp_negatedObject) (acyclic_negatedObjects _)

example : (printOp negatedObjects (Path.new (.node ⟨5⟩)) (.dotted (.unary "-" plainSum) "c")).toOption =
    some [.lparen, .operator "-", .lparen, .identifier "a", .operator "+", .identifier "b", .rparen, .rparen, .dot,
      .identifier "c"] := by
  decide

/-- The nodes of `(-a)()` and of `-(a())`. -/
def negatedCallee : Heap where
  nodes := #[
    { tag := "Identifier", fields := .ofEntries [("name", .str "a")] },
    { tag := "UnaryExpression"
      fields := .ofEntries [("operator", .str "-"), ("prefix", .bool true), ("argument", .node ⟨0⟩)] },
    { tag := "CallExpression", fields := .ofEntries [("callee", .node ⟨1⟩), ("arguments", .list ⟨0⟩)] },
    { tag := "CallExpression", fields := .ofEntries [("callee", .node ⟨0⟩), ("arguments", .list ⟨0⟩)] },
    { tag := "UnaryExpression"
      fields := .ofEntries [("operator", .str "-"), ("prefix", .bool true), ("argument", .node ⟨3⟩)] }]
  lists := #[[]]

/-- The nodes of `await (a + b)`. -/
def awaitedSum : Heap where
  nodes := #[
    { tag := "Identifier", fields := .ofEntries [("name", .str "a")] },
    { tag := "Identifier", fields := .ofEntries [("name", .str "b")] },
    { tag := "BinaryExpression"
      fields := .ofEntries [("operator", .str "+"), ("left", .node ⟨0⟩), ("right", .node ⟨1⟩)] },
    { tag := "AwaitExpression", fields := .ofEntries [("argument", .node ⟨2⟩)] }]

/-- A prefix operator as a callee loses its scope: `(-a)()` is printed as `-a()`, which is how `-(a())` is printed. And
`await` loses an operand that binds more loosely: `await (a + b)` is printed as `await a + b`, where the operator of the
sum is outside. -/
theorem printOp_loses_scope :
    negatedCallee.HoldsOp (.node ⟨2⟩) (.call (.unary "-" (.identifier "a")) []) ∧
    negatedCallee.HoldsOp (.node ⟨4⟩) (.unary "-" (.call (.identifier "a") [])) ∧
    negatedCallee.Acyclic (.node ⟨2⟩) ∧ negatedCallee.Acyclic (.node ⟨4⟩) ∧
    printOp negatedCallee (Path.new (.node ⟨2⟩)) (.call (.unary "-" (.identifier "a")) []) =
      .ok [.operator "-", .identifier "a", .lparen, .rparen] ∧
    printOp negatedCallee (Path.new (.node ⟨4⟩)) (.unary "-" (.call (.identifier "a") [])) =
      .ok [.operator "-", .identifier "a", .lparen, .rparen] ∧
    awaitedSum.HoldsOp (.node ⟨3⟩) (.await plainSum) ∧ awaitedSum.Acyclic (.node ⟨3⟩) ∧
    printOp awaitedSum (Path.new (.node ⟨3⟩)) (.await plainSum) =
      .ok [.operator "await", .identifier "a", .operator "+", .identifier "b"] := by
  have ha : ∀ v, negatedCallee.Acyclic v := Heap.acyclic_of_measure Heap.nodePlace (by decide) (by decide)
  have hname : negatedCallee.HoldsOp (.node ⟨0⟩) (.identifier "a") := ⟨⟨0⟩, ⟨rfl, by decide, by decide⟩, by decide⟩
  have hawaited : ∀ v, awaitedSum.Acyclic v := Heap.acyclic_of_measure Heap.nodePlace (by decide) (by decide)
  refine ⟨?_, ?_, ha _, ha _, rfl, rfl, ?_, hawaited _, rfl⟩
  · refine ⟨⟨2⟩, ⟨0⟩, ⟨rfl, by decide, by decide⟩, ?_, by decide, trivial⟩
    exact ⟨⟨1⟩, ⟨rfl, by decide, by decide⟩, by decide, by decide, by decide, hname⟩
  · refine ⟨⟨4⟩, ⟨rfl, by decide, by decide⟩, by decide, by decide, by decide, ?_⟩
    exact ⟨⟨3⟩, ⟨0⟩, ⟨rfl, by decide, by decide⟩, hname, by decide, trivial⟩
  · refine ⟨⟨3⟩, ⟨rfl, by decide, by decide⟩, ⟨2⟩, ⟨rfl, by decide, by decide⟩, by decide, by decide, ?_, ?_⟩
    · exact ⟨⟨0⟩, ⟨rfl, by decide, by decide⟩, by decide⟩
    · exact ⟨⟨1⟩, ⟨rfl, by decide, by decide⟩, by decide⟩

end Printing

end Bracketing
