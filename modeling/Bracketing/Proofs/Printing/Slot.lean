import Bracketing.Proofs.Printing.Place

/-!
# The verdict keeps the categories

Every slot of an expression takes phrases of a certain category, and every expression is by itself a phrase of a
certain category (`Expr.home`). An expression that gets no parentheses in a slot is of a category that the slot takes
(`Fits`). Slots are of three sorts:

- loose slots (arguments, items, branches, values, bodies) take all but sequences (`fits_loose`);
- tight slots (callees, objects, tests, operands) take calls and member accesses, and some take tighter operators
  (`fits_tight`, `fits_test`, `fits_left`, `fits_right`);
- the callee of a construction, and the object of a member access in one, must not begin with a call
  (`fits_object`, `fits_newCallee`).
-/

namespace Bracketing.Printing

open Bracketing.Tree

/-! ## Categories -/

/-- Every phrase of the first category is one of the second. -/
def Within (c c' : Category) : Prop := ∀ ts e, Derives c ts e → Derives c' ts e

theorem Within.refl (c : Category) : Within c c := fun _ _ hd => hd

theorem Within.trans {a b c : Category} (h₁ : Within a b) (h₂ : Within b c) : Within a c :=
  fun ts e hd => h₂ ts e (h₁ ts e hd)

theorem within_tier {j k : Nat} (h0 : 0 < j) (hjk : j ≤ k) (hk : k ≤ topTier) : Within (.tier k) (.tier j) := by
  induction hn : k - j generalizing j with
  | zero =>
    have : j = k := by omega
    subst this
    exact .refl _
  | succ d ih => exact fun ts e hd => .ofTier h0 (by omega) (ih (by omega) (by omega) (by omega) ts e hd)

theorem within_call_tier {k : Nat} (h0 : 0 < k) (hk : k ≤ topTier) : Within .call (.tier k) :=
  fun ts e hd => within_tier h0 hk (Nat.le_refl _) ts e (.ofCall hd)

theorem within_primary_member : Within .primary .member := fun _ _ => .ofPrimary

theorem within_member_call : Within .member .call := fun _ _ => .ofMember

theorem within_tier_head {k : Nat} (h3 : coalesceTier ≤ k) (hk : k ≤ topTier) : Within (.tier k) .coalesceHead :=
  fun ts e hd => .headOfTier (within_tier (by decide) h3 hk ts e hd)

theorem within_call_head : Within .call .coalesceHead :=
  fun ts e hd => .headOfTier (within_call_tier (by decide) (by decide) ts e hd)

theorem within_tier_shortCircuit {k : Nat} (h0 : 0 < k) (hk : k ≤ topTier) : Within (.tier k) .shortCircuit :=
  fun ts e hd => .shortOfTier (within_tier Nat.one_pos h0 hk ts e hd)

theorem within_call_shortCircuit : Within .call .shortCircuit :=
  fun ts e hd => .shortOfTier (within_call_tier Nat.one_pos (by decide) ts e hd)

theorem within_shortCircuit_assignment : Within .shortCircuit .assignment :=
  fun _ _ hd => .ofConditional (.ofShortCircuit hd)

theorem within_call_assignment : Within .call .assignment :=
  within_call_shortCircuit.trans within_shortCircuit_assignment

/-! ## Tiers -/

theorem tier_spec {op : String} {k : Nat} (hk : Operator.tier? op = some k) :
    ∃ ops, Operator.tiers[k]? = some ops ∧ op ∈ ops := by
  obtain ⟨hl, hc, -⟩ := List.findIdx?_eq_some_iff_getElem.1 hk
  exact ⟨_, List.getElem?_eq_getElem hl, by simpa using hc⟩

theorem tier_le {op : String} {k : Nat} (hk : Operator.tier? op = some k) : k ≤ topTier := by
  obtain ⟨ops, ho, -⟩ := tier_spec hk
  have := (List.getElem?_eq_some_iff.1 ho).1
  simp only [Operator.tiers, List.length_cons, List.length_nil] at this
  show k ≤ 11
  omega

theorem tier_zero {op : String} (hk : Operator.tier? op = some 0) : op = "??" := by
  obtain ⟨ops, ho, hm⟩ := tier_spec hk
  simp only [Operator.tiers, List.getElem?_cons_zero, Option.some.injEq] at ho
  subst ho
  simpa using hm

theorem tier_top {op : String} (hk : Operator.tier? op = some topTier) : op = "**" := by
  obtain ⟨ops, ho, hm⟩ := tier_spec hk
  have : ops = ["**"] := by simpa [Operator.tiers, topTier] using ho.symm
  subst this
  simpa using hm

/-- Between `??` and the operands it takes there are only the operators that must not stand beside it. -/
theorem isChoice_of_tier {op : String} {k : Nat} (hk : Operator.tier? op = some k) (h0 : 0 < k)
    (h3 : k < coalesceTier) : Operator.isChoice op = true := by
  obtain ⟨ops, ho, hm⟩ := tier_spec hk
  have h12 : k = 1 ∨ k = 2 := by
    unfold coalesceTier at h3
    omega
  rcases h12 with rfl | rfl
  · have : ops = ["||"] := by simpa [Operator.tiers] using ho.symm
    subst this
    simp [Operator.isChoice, List.mem_singleton.1 hm]
  · have : ops = ["&&"] := by simpa [Operator.tiers] using ho.symm
    subst this
    simp [Operator.isChoice, List.mem_singleton.1 hm]

/-! ## The category of an expression -/

/-- The expression without parentheses begins with a call. -/
def Expr.beginsWithCall : Expr → Bool
  | call _ _ => true
  | dotted o _ | computed o _ => o.beginsWithCall
  | _ => false

/-- The category of an expression without parentheses around it. -/
def Expr.home : Expr → Category
  | identifier _ | number _ | object | function _ | paren _ => .primary
  | new _ _ => .member
  | dotted o _ | computed o _ => if o.beginsWithCall then .call else .member
  | call _ _ => .call
  | binary op _ _ => if op = "??" then .coalesce else .tier ((Operator.tier? op).getD 0)
  | conditional _ _ _ => .conditional
  | assignment _ _ _ | yield _ | arrow _ _ => .assignment
  | sequence _ => .expression

/-- The expression binds more loosely than every operator. -/
def Expr.isLoose : Expr → Bool
  | conditional _ _ _ | assignment _ _ _ | yield _ | arrow _ _ | sequence _ => true
  | _ => false

/-- The expression is an operator between two operands. -/
def Expr.isBinary : Expr → Bool
  | binary _ _ _ => true
  | _ => false

/-- What is neither loose nor a binary operator is at least a call. -/
theorem home_within_call {e : Expr} (hl : e.isLoose = false) (hb : e.isBinary = false) : Within e.home .call := by
  cases e with
  | identifier | number | object | function | paren => exact within_primary_member.trans within_member_call
  | new => exact within_member_call
  | call => exact .refl _
  | dotted o s | computed o i =>
    simp only [Expr.home]
    split
    · exact .refl _
    · exact within_member_call
  | binary => cases hb
  | _ => cases hl

theorem home_within_member {e : Expr} (hl : e.isLoose = false) (hb : e.isBinary = false)
    (hc : e.beginsWithCall = false) : Within e.home .member := by
  cases e with
  | identifier | number | object | function | paren => exact within_primary_member
  | new => exact .refl _
  | call => cases hc
  | dotted o s | computed o i =>
    simp only [Expr.beginsWithCall] at hc
    simp only [Expr.home, hc]
    exact .refl _
  | binary => cases hb
  | _ => cases hl

theorem home_binary {op : String} {k : Nat} (hk : Operator.tier? op = some k) (h0 : 0 < k) (l r : Expr) :
    (Expr.binary op l r).home = .tier k := by
  have : op ≠ "??" := by
    rintro rfl
    have : Operator.tier? "??" = some 0 := by decide
    rw [this] at hk
    cases hk
    exact Nat.lt_irrefl 0 h0
  simp [Expr.home, this, hk]

/-- An operator has a tier, so its expression is a short-circuit expression. -/
theorem home_binary_within {op : String} {l r : Expr} (hop : (Operator.tier? op).isSome) :
    Within (Expr.binary op l r).home .shortCircuit := by
  obtain ⟨k, hk⟩ := Option.isSome_iff_exists.1 hop
  cases k with
  | zero =>
    obtain rfl := tier_zero hk
    exact fun _ _ => .shortOfCoalesce
  | succ k =>
    rw [home_binary hk (Nat.succ_pos k)]
    exact within_tier_shortCircuit (Nat.succ_pos k) (tier_le hk)

/-- Every expression is an expression. -/
theorem home_within_expression {h : Heap} {v : Value} {e : Expr} (he : h.Holds v e) : Within e.home .expression := by
  cases e with
  | sequence => exact .refl _
  | conditional => exact fun _ _ hd => .ofAssignment (.ofConditional hd)
  | assignment | yield | arrow => exact fun _ _ => .ofAssignment
  | binary op l r =>
    obtain ⟨m, -, -, hop, -⟩ := he
    exact fun ts e hd => .ofAssignment (within_shortCircuit_assignment ts e (home_binary_within hop ts e hd))
  | paren => exact he.elim
  | _ => exact fun ts e hd => .ofAssignment (within_call_assignment ts e (home_within_call rfl rfl ts e hd))

/-! ## Slots -/

variable {h : Heap} {p : Path} {n c : NodeId} {name : Value} {outer inner : Expr} {cat : Category}

/-- The verdict at the path is such that the expression there, printed with it, is a phrase of the category. -/
def Fits (h : Heap) (p : Path) (e : Expr) (cat : Category) : Prop :=
  ∃ v, p.decide h false = .ok v ∧ (v.parens = false → Within e.home cat)

theorem Fits.of_within (hc : Child h p n c name outer inner) (hw : Within inner.home cat) : Fits h p inner cat := by
  obtain ⟨v, hv⟩ := hc.exists_decide
  exact ⟨v, hv, fun _ => hw⟩

theorem Fits.of_parens {r : Rule} (hd : p.decide h false = .ok ⟨true, r⟩) : Fits h p inner cat :=
  ⟨_, hd, by simp⟩

/-- The site is one where only calls, member accesses and tighter operators go without parentheses. -/
inductive Tight (s : Site) : Prop
  | operand : s.parentKind.isBinary = true → Tight s
  | unary : s.parentKind = .unary → Tight s
  | callee : s.parentKind.isCallLike = true → s.fills "callee" = true → Tight s
  | test : s.parentKind = .conditional → s.fills "test" = true → Tight s
  | object : s.parentKind = .member → s.fills "object" = true → Tight s

theorem isBinary_iff {k : Kind} : k.isBinary = true ↔ k = .binary ∨ k = .logical := by
  simp [Kind.isBinary]

theorem isBinary_binaryKind (op : String) : (Heap.binaryKind op).isBinary = true :=
  isBinary_iff.2 (binaryKind_eq op).symm

theorem byKind_sequence {s : Site} (hk : s.kind = .sequence) (hp : s.parentKind ∈ expressionKinds)
    (g : Option NodeId) : s.byKind g = .ok (some true) := by
  have hp' : ∀ k ∈ expressionKinds, k ≠ .returnStatement ∧ k ≠ .forStatement ∧ k ≠ .expressionStatement := by decide
  obtain ⟨h1, h2, h3⟩ := hp' _ hp
  unfold Site.byKind
  rw [hk]
  dsimp only
  split <;> simp_all

theorem byKind_operator {s : Site}
    (hk : s.kind = .conditional ∨ s.kind = .assignment ∨ s.kind = .yield ∨ s.kind = .await) (ht : Tight s)
    (g : Option NodeId) : s.byKind g = .ok (some true) := by
  have hb : s.byKind g = .ok (some (
      if s.parentKind.isUnaryLike || s.parentKind.isBinary then true
      else if s.parentKind.isCallLike then s.fills "callee"
      else if s.parentKind = .conditional then s.fills "test"
      else s.isObject)) := by
    unfold Site.byKind
    rcases hk with hk | hk | hk | hk <;> rw [hk] <;> dsimp only <;> repeat' split
    all_goals rfl
  rw [hb]
  cases ht with
  | operand hp => simp [hp]
  | unary hp => simp [hp, Kind.isUnaryLike]
  | callee hp hf => simp [hp, hf]
  | test hp hf => simp [hp, hf, Kind.isBinary, Kind.isUnaryLike, Kind.isCallLike]
  | object hp hf => simp [hp, hf, Site.isObject, Kind.isBinary, Kind.isUnaryLike, Kind.isCallLike]

theorem byKind_arrow {s : Site} (hk : s.kind = .arrowFunction) (ht : Tight s) (g : Option NodeId) :
    s.byKind g = .ok (some true) := by
  unfold Site.byKind
  rw [hk]
  cases ht with
  | operand hp => simp [hp]
  | unary hp => simp [hp]
  | callee hp hf => simp [Site.isCallee, hp, hf]
  | test hp hf => simp [hp, hf]
  | object hp hf => simp [Site.isObject, hp, hf]

/-- Loose expressions get parentheses in tight sites. -/
theorem byKind_loose (hc : Child h p n c name outer inner) (hl : inner.isLoose = true)
    (ht : Tight (Child.site h n c name)) (g : Option NodeId) :
    (Child.site h n c name).byKind g = .ok (some true) := by
  have hk : (Child.site h n c name).kind = inner.kind := (holds_node hc.holds).kind
  cases inner with
  | conditional => exact byKind_operator (.inl hk) ht g
  | assignment => exact byKind_operator (.inr (.inl hk)) ht g
  | yield => exact byKind_operator (.inr (.inr (.inl hk))) ht g
  | arrow => exact byKind_arrow hk ht g
  | sequence =>
    refine byKind_sequence hk ?_ g
    show h.kind (some n) ∈ expressionKinds
    rw [hc.outerKind]
    exact outer.kind_mem
  | _ => cases hl

theorem kind_of_loose {e : Expr} (hl : e.isLoose = true) : e.kind ≠ .identifier := by
  cases e <;> simp_all [Expr.isLoose, Expr.kind]

/-- A tight slot that takes calls takes everything that gets no parentheses, if this holds for binary operators. -/
theorem fits_tight (hc : Child h p n c name outer inner) (ht : Tight (Child.site h n c name))
    (hw : Within .call cat) (hb : inner.isBinary = true → Fits h p inner cat) : Fits h p inner cat := by
  cases hl : inner.isLoose with
  | true =>
    obtain ⟨r, hr⟩ := hc.decide_of_byKind (kind_of_loose hl) (byKind_loose hc hl ht)
    exact .of_parens hr
  | false =>
    cases hib : inner.isBinary with
    | true => exact hb hib
    | false => exact .of_within hc ((home_within_call hl hib).trans hw)

/-- Sequences get parentheses under every expression. -/
theorem decide_sequence {es : List Expr} (hc : Child h p n c name outer (.sequence es)) :
    ∃ r, p.decide h false = .ok ⟨true, r⟩ := by
  have hk : (Child.site h n c name).kind = .sequence := (holds_node hc.holds).kind
  have hp : (Child.site h n c name).parentKind ∈ expressionKinds := by
    show h.kind (some n) ∈ expressionKinds
    rw [hc.outerKind]
    exact outer.kind_mem
  exact hc.decide_of_byKind (by simp [Expr.kind]) (byKind_sequence hk hp)

/-- A loose slot takes everything that gets no parentheses. -/
theorem fits_loose (hc : Child h p n c name outer inner) (hw : Within .assignment cat) : Fits h p inner cat := by
  cases inner with
  | sequence es =>
    obtain ⟨r, hr⟩ := decide_sequence hc
    exact .of_parens hr
  | conditional => exact .of_within hc (Within.trans (fun _ _ => .ofConditional) hw)
  | assignment | yield | arrow => exact .of_within hc hw
  | binary op l r =>
    obtain ⟨m, -, -, hop, -⟩ := hc.holds
    exact .of_within hc (((home_binary_within hop).trans within_shortCircuit_assignment).trans hw)
  | _ => exact .of_within hc (((home_within_call rfl rfl).trans within_call_assignment).trans hw)

/-! ### Callees and objects -/

theorem byKind_binary {s : Site} (hk : s.kind.isBinary = true) (g : Option NodeId) : s.byKind g =
    if s.parentKind.isCallLike then .ok (if s.fills "callee" then some true else none)
    else if s.parentKind.isUnaryLike then .ok (some true)
    else if s.parentKind = .member then .ok (some s.isObject)
    else if s.parentKind.isBinary then s.binaryInBinary.bind fun b => .ok (if b then some true else none)
    else .ok (some false) := by
  unfold Site.byKind
  rcases isBinary_iff.1 hk with hk | hk <;> rw [hk] <;> rfl

theorem ne_identifier_of_isBinary {k : Kind} (hb : k.isBinary = true) : k ≠ .identifier := by
  rintro rfl
  cases hb

/-- Binary operators get parentheses as callees, as objects and after prefix operators. -/
theorem Nested.decide_binary {outer inner : Kind} (hc : Nested h p n c name outer inner) (hb : inner.isBinary = true)
    (ht : (outer.isCallLike = true ∧ (⟨h, c, n, name⟩ : Site).fills "callee" = true) ∨
      (outer = .member ∧ (⟨h, c, n, name⟩ : Site).fills "object" = true) ∨ outer = .unary) :
    ∃ r, p.decide h false = .ok ⟨true, r⟩ := by
  have hk : (⟨h, c, n, name⟩ : Site).kind = inner := hc.inside.bare.kind
  have hp : (⟨h, c, n, name⟩ : Site).parentKind = outer := hc.around.bare.kind
  refine hc.decide_of_byKind (ne_identifier_of_isBinary hb) fun g => ?_
  rw [byKind_binary (hk ▸ hb), hp]
  rcases ht with ⟨ho, hf⟩ | ⟨ho, hf⟩ | ho
  · simp [ho, hf]
  · simp [ho, hf, Site.isObject, hp, Kind.isCallLike, Kind.isUnaryLike]
  · simp [ho, Kind.isCallLike, Kind.isUnaryLike]

theorem isBinary_kind {e : Expr} (hb : e.isBinary = true) : e.kind.isBinary = true := by
  cases e with
  | binary op l r => exact isBinary_binaryKind op
  | _ => cases hb

theorem fits_of_binary (hc : Child h p n c name outer inner) (hb : inner.isBinary = true)
    (ht : (outer.kind.isCallLike = true ∧ (Child.site h n c name).fills "callee" = true) ∨
      (outer.kind = .member ∧ (Child.site h n c name).fills "object" = true)) : Fits h p inner cat := by
  obtain ⟨r, hr⟩ := hc.nested.decide_binary (isBinary_kind hb) (ht.imp_right .inl)
  exact .of_parens hr

theorem fits_callee {e : Expr} {as : List Expr} (hc : Child h p n c (.str "callee") (.call e as) inner) :
    Fits h p inner .call := by
  have ho : (Child.site h n c (.str "callee")).parentKind.isCallLike = true := by
    show (h.kind (some n)).isCallLike = true
    rw [hc.outerKind]
    rfl
  exact fits_tight hc (.callee ho hc.fills) (.refl _) fun hb => fits_of_binary hc hb (.inl ⟨rfl, hc.fills⟩)

theorem tight_object (hc : Child h p n c (.str "object") outer inner) (ho : outer.kind = .member) :
    Tight (Child.site h n c (.str "object")) := by
  refine .object ?_ hc.fills
  show h.kind (some n) = .member
  rw [hc.outerKind, ho]

/-- The object of a member access begins with a call exactly if the access does. -/
theorem fits_object (hc : Child h p n c (.str "object") outer inner) (ho : outer.kind = .member) :
    Fits h p inner (if inner.beginsWithCall then .call else .member) := by
  split
  · exact fits_tight hc (tight_object hc ho) (.refl _) fun hb => fits_of_binary hc hb (.inr ⟨ho, hc.fills⟩)
  · rename_i hbc
    cases hl : inner.isLoose with
    | true =>
      obtain ⟨r, hr⟩ := hc.decide_of_byKind (kind_of_loose hl) (byKind_loose hc hl (tight_object hc ho))
      exact .of_parens hr
    | false =>
      cases hb : inner.isBinary with
      | true => exact fits_of_binary hc hb (.inr ⟨ho, hc.fills⟩)
      | false => exact .of_within hc (home_within_member hl hb (by simpa using hbc))

theorem below_object {v : Value} {o : NodeId} {w : Value} (hv : v = .node o) (hw : h.get o "object" = w)
    (hn : w ≠ .null) : h.Below v w := by
  subst hv
  exact .single (Heap.member_of_get (by simp) hw hn)

/-- What begins with a call has a call below it. -/
theorem exists_call_below : ∀ {e : Expr} {v : Value}, h.Holds v e → e.beginsWithCall = true →
    ∃ m, h.Below v (.node m) ∧ h.kind (some m) = .call
  | .call c as, v, he, _ => by
    obtain ⟨m, l, hm, -⟩ := he
    exact ⟨m, hm.value ▸ .refl, hm.kind⟩
  | .dotted o s, v, he, hb => by
    obtain ⟨m, hm, -, ho, -⟩ := he
    obtain ⟨m', hm'⟩ := holds_isBare ho
    obtain ⟨i, hi, hk⟩ := exists_call_below ho hb
    exact ⟨i, (below_object hm.value rfl (by rw [hm'.value]; simp)).trans hi, hk⟩
  | .computed o i, v, he, hb => by
    obtain ⟨m, hm, -, ho, -⟩ := he
    obtain ⟨m', hm'⟩ := holds_isBare ho
    obtain ⟨i, hi, hk⟩ := exists_call_below ho hb
    exact ⟨i, (below_object hm.value rfl (by rw [hm'.value]; simp)).trans hi, hk⟩

/-- The rules about kinds say nothing on calls and member accesses under a construction. -/
theorem byKind_silent {s : Site} (hk : s.kind = .call ∨ s.kind = .member) (hp : s.parentKind = .new)
    (g : Option NodeId) : s.byKind g = .ok none := by
  unfold Site.byKind
  rcases hk with hk | hk <;> simp [hk, hp]

/-- A call or member access gets parentheses as the callee of a construction if there is a call in it. -/
theorem Nested.decide_newCallee {inner : Kind} (hc : Nested h p n c (.str "callee") .new inner)
    (hk : inner = .call ∨ inner = .member) (hcall : ∃ m, h.Below (.node c) (.node m) ∧ h.kind (some m) = .call) :
    p.decide h false = .ok ⟨true, .newCallee⟩ := by
  have hkind : (⟨h, c, n, .str "callee"⟩ : Site).kind = inner := hc.inside.bare.kind
  have hp : (⟨h, c, n, .str "callee"⟩ : Site).parentKind = .new := hc.around.bare.kind
  have hi : inner ≠ .identifier := by rcases hk with rfl | rfl <;> simp
  have hfound : containsCall h c = .ok true := by
    obtain ⟨b, hb, hiff⟩ := exists_containsCall hc.stands.acyclic
    rw [hb, hiff.2 hcall]
  rw [hc.decide_of_silent hi (byKind_silent (hkind ▸ hk) hp), Path.decideByPlace]
  simp only [hp, hc.fills, hfound, decide_true, Bool.and_self, if_true]
  rfl

theorem kind_of_beginsWithCall {e : Expr} (hb : e.beginsWithCall = true) : e.kind = .call ∨ e.kind = .member := by
  cases e <;> simp_all [Expr.beginsWithCall, Expr.kind]

theorem fits_newCallee {e : Expr} {as : List Expr} (hc : Child h p n c (.str "callee") (.new e as) inner) :
    Fits h p inner .member := by
  have ho : (Child.site h n c (.str "callee")).parentKind.isCallLike = true := by
    show (h.kind (some n)).isCallLike = true
    rw [hc.outerKind]
    rfl
  cases hb : inner.beginsWithCall with
  | true => exact .of_parens (hc.nested.decide_newCallee (kind_of_beginsWithCall hb) (exists_call_below hc.holds hb))
  | false =>
    cases hl : inner.isLoose with
    | true =>
      obtain ⟨r, hr⟩ := hc.decide_of_byKind (kind_of_loose hl) (byKind_loose hc hl (.callee ho hc.fills))
      exact .of_parens hr
    | false =>
      cases hib : inner.isBinary with
      | true => exact fits_of_binary hc hib (.inl ⟨rfl, hc.fills⟩)
      | false => exact .of_within hc (home_within_member hl hib hb)

/-! ### Tests, targets and operands -/

theorem isSome_tier {v : Value} {e : Expr} (he : h.Holds v e) (hb : e.isBinary = true) :
    ∃ op l r, e = .binary op l r ∧ (Operator.tier? op).isSome := by
  cases e with
  | binary op l r =>
    obtain ⟨m, -, -, hop, -⟩ := he
    exact ⟨op, l, r, rfl, hop⟩
  | _ => cases hb

theorem fits_test {t a b : Expr} (hc : Child h p n c (.str "test") (.conditional t a b) inner) :
    Fits h p inner .shortCircuit := by
  refine fits_tight hc (.test hc.outerKind hc.fills) within_call_shortCircuit fun hb => ?_
  obtain ⟨op, l, r, rfl, hop⟩ := isSome_tier hc.holds hb
  exact .of_within hc (home_binary_within hop)

theorem fits_target (hc : Child h p n c name outer inner) (ht : inner.isTarget = true) : Fits h p inner .call := by
  refine .of_within hc (home_within_call ?_ ?_)
  · cases inner <;> first | rfl | cases ht
  · cases inner <;> first | rfl | cases ht

/-- The category of the left operand of the operators of a tier. -/
def leftCategory (k : Nat) : Category := if k = 0 then .coalesceHead else if k = topTier then .call else .tier k

/-- The category of the right operand of the operators of a tier. -/
def rightCategory (k : Nat) : Category :=
  if k = 0 then .tier coalesceTier else if k = topTier then .tier topTier else .tier (k + 1)

/-- Operands of the categories of a tier make a phrase of that tier. -/
theorem derives_binary {op : String} {k : Nat} {ls rs : List Terminal} {l r l' r' : Expr}
    (hk : Operator.tier? op = some k) (hl : Derives (leftCategory k) ls l) (hr : Derives (rightCategory k) rs r) :
    Derives (Expr.binary op l' r').home (ls ++ .operator op :: rs) (.binary op l r) := by
  by_cases h0 : k = 0
  · subst h0
    obtain rfl := tier_zero hk
    exact .coalesce hl hr
  · rw [home_binary hk (Nat.pos_of_ne_zero h0)]
    simp only [leftCategory, rightCategory, h0, if_false] at hl hr
    by_cases ht : k = topTier
    · subst ht
      obtain rfl := tier_top hk
      exact .power hl hr
    · rw [if_neg ht] at hl hr
      exact .binary (Nat.pos_of_ne_zero h0) (Nat.lt_of_le_of_ne (tier_le hk) ht) hk hl hr

theorem within_call_left {k : Nat} (hk : k ≤ topTier) : Within .call (leftCategory k) := by
  unfold leftCategory
  split
  · exact within_call_head
  · split
    · exact .refl _
    · exact within_call_tier (by omega) hk

theorem within_call_right {k : Nat} (hk : k ≤ topTier) : Within .call (rightCategory k) := by
  unfold rightCategory
  split
  · exact within_call_tier (by decide) (by decide)
  · split
    · exact within_call_tier (by decide) (by decide)
    · exact within_call_tier (by omega) (by omega)

/-- An operator that gets no parentheses under another does not clash with it and binds at least as tightly. It binds
more tightly if it stands on the side to which the other does not associate. -/
theorem of_binaryInBinary {s : Site} {j k : Nat} (hs : s.binaryInBinary = .ok false)
    (hj : Operator.tier? s.parentOperator = some j) (hk : Operator.tier? s.operator = some k) :
    Operator.clash s.parentOperator s.operator = false ∧ j ≤ k ∧
      (j = k → s.isUnder "right" = false ∧ (s.parentOperator = "**" → s.isUnder "left" = false)) := by
  unfold Site.binaryInBinary at hs
  rw [hj, hk] at hs
  dsimp only at hs
  split at hs
  · cases hs
  rename_i hclash
  split at hs
  · cases hs
  rename_i hlt
  refine ⟨by simpa using hclash, by omega, ?_⟩
  rintro rfl
  cases hr : s.isUnder "right" with
  | true =>
    rw [if_pos (by simp [hr])] at hs
    unfold expectEdge at hs
    split at hs <;> cases hs
  | false =>
    rw [if_neg (by simp [hr])] at hs
    refine ⟨rfl, fun hop => ?_⟩
    cases hl : s.isUnder "left" with
    | true =>
      rw [if_pos (by simp [hl, hop])] at hs
      unfold expectEdge at hs
      split at hs <;> cases hs
    | false => rfl

theorem textAt_eq {m : NodeId} {k s : String} (hk : h.get m k = .str s) : h.textAt m k = s := by
  simp [Heap.textAt, hk]

/-- The rules about places ask for nothing around a binary operator under another. -/
theorem decideByPlace_binary {s : Site} (hk : s.kind.isBinary = true) (hp : s.parentKind.isBinary = true) :
    p.decideByPlace false s = .ok ⟨false, .default⟩ := by
  have hnew : s.parentKind ≠ .new := by
    intro heq
    rw [heq] at hp
    cases hp
  have hlead : mayLead s.heap (some s.node) = true := by
    have hkind : s.heap.kind (some s.node) = s.kind := rfl
    rcases isBinary_iff.1 hk with hb | hb <;> simp [mayLead, isLetBracket, hkind, hb]
  simp [Path.decideByPlace, hnew, hlead]

/-- A binary operator under another gets parentheses just if the rule about nested operators asks for them. -/
theorem Nested.binaryInBinary_eq {outer inner : Kind} {v : Verdict} (hc : Nested h p n c name outer inner)
    (ho : outer.isBinary = true) (hi : inner.isBinary = true) (hd : p.decide h false = .ok v) :
    (⟨h, c, n, name⟩ : Site).binaryInBinary = .ok v.parens := by
  have hk : (⟨h, c, n, name⟩ : Site).kind = inner := hc.inside.bare.kind
  have hpk : (⟨h, c, n, name⟩ : Site).parentKind = outer := hc.around.bare.kind
  have hplace := decideByPlace_binary (p := p) (hk.symm ▸ hi) (hpk.symm ▸ ho)
  rw [hc.decide_eq (ne_identifier_of_isBinary hi), byKind_binary (hk ▸ hi), hpk, hplace] at hd
  have hnot : ∀ k : Kind, k = .binary ∨ k = .logical →
      k.isCallLike = false ∧ k.isUnaryLike = false ∧ k ≠ .member ∧ k.isBinary = true := by
    rintro k (rfl | rfl) <;> decide
  obtain ⟨h1, h2, h3, h4⟩ := hnot _ (isBinary_iff.1 ho)
  simp only [h1, h2, h3, h4, if_false, if_true, Bool.false_eq_true] at hd
  cases hb : (⟨h, c, n, name⟩ : Site).binaryInBinary with
  | error e =>
    rw [hb] at hd
    cases hd
  | ok b =>
    rw [hb] at hd
    cases b with
    | false =>
      cases hd
      rfl
    | true =>
      cases hd
      rfl

/-- What the tiers of an operator and of the one around it are, when it gets no parentheses. -/
theorem Nested.tiers_of_bare {outer inner : Kind} {op op' : String} {v : Verdict} {j k : Nat}
    (hc : Nested h p n c name outer inner) (ho : outer.isBinary = true) (hi : inner.isBinary = true)
    (hop : h.get n "operator" = .str op) (hop' : h.get c "operator" = .str op') (hd : p.decide h false = .ok v)
    (hv : v.parens = false) (hj : Operator.tier? op = some j) (hk : Operator.tier? op' = some k) :
    Operator.clash op op' = false ∧ j ≤ k ∧
      (j = k → name ≠ .str "right" ∧ (op = "**" → name ≠ .str "left")) := by
  have hpo : (⟨h, c, n, name⟩ : Site).parentOperator = op := textAt_eq hop
  have ho' : (⟨h, c, n, name⟩ : Site).operator = op' := textAt_eq hop'
  have := of_binaryInBinary ((hc.binaryInBinary_eq ho hi hd).trans (congrArg _ hv)) (hpo.symm ▸ hj) (ho'.symm ▸ hk)
  rw [hpo, ho'] at this
  simpa only [Site.isUnder, decide_eq_false_iff_not] using this

theorem tiers_of_bare {op op' : String} {l r l' r' : Expr} {v : Verdict} {j : Nat}
    (hc : Child h p n c name (.binary op l r) (.binary op' l' r')) (hd : p.decide h false = .ok v)
    (hv : v.parens = false) (hj : Operator.tier? op = some j) :
    ∃ k, Operator.tier? op' = some k ∧ Operator.clash op op' = false ∧ j ≤ k ∧
      (j = k → name ≠ .str "right" ∧ (op = "**" → name ≠ .str "left")) := by
  obtain ⟨m, hm, hop, -⟩ := hc.around
  obtain ⟨m', hm', hop', htier, -⟩ := hc.holds
  cases hm.value
  cases hm'.value
  obtain ⟨k, hk⟩ := Option.isSome_iff_exists.1 htier
  exact ⟨k, hk, hc.nested.tiers_of_bare (isBinary_binaryKind op) (isBinary_binaryKind op') hop hop' hd hv hj hk⟩

/-- Beside `??` without parentheses, an operator of another tier is no choice. -/
theorem coalesceTier_le {op : String} {k : Nat} (hk : Operator.tier? op = some k) (h0 : 0 < k)
    (hclash : Operator.clash "??" op = false) : coalesceTier ≤ k := by
  by_contra hlt
  have := isChoice_of_tier hk h0 (by omega)
  simp [Operator.clash, this] at hclash

theorem tight_operand {op : String} {l r : Expr} (hc : Child h p n c name (.binary op l r) inner) :
    Tight (Child.site h n c name) := by
  refine .operand ?_
  show (h.kind (some n)).isBinary = true
  rw [hc.outerKind]
  exact isBinary_binaryKind op

theorem fits_left {op : String} {l r : Expr} {j : Nat} (hc : Child h p n c (.str "left") (.binary op l r) inner)
    (hj : Operator.tier? op = some j) : Fits h p inner (leftCategory j) := by
  refine fits_tight hc (tight_operand hc) (within_call_left (tier_le hj)) fun hb => ?_
  obtain ⟨op', l', r', rfl, -⟩ := isSome_tier hc.holds hb
  obtain ⟨v, hd⟩ := hc.exists_decide
  refine ⟨v, hd, fun hv => ?_⟩
  obtain ⟨k, hk, hclash, hjk, heq⟩ := tiers_of_bare hc hd hv hj
  unfold leftCategory
  by_cases h0 : j = 0
  · subst h0
    obtain rfl := tier_zero hj
    rw [if_pos rfl]
    cases k with
    | zero =>
      obtain rfl := tier_zero hk
      exact fun _ _ => .headOfCoalesce
    | succ k =>
      rw [home_binary hk (Nat.succ_pos k)]
      exact within_tier_head (coalesceTier_le hk (Nat.succ_pos k) hclash) (tier_le hk)
  · have ht : j ≠ topTier := by
      rintro rfl
      exact (heq (Nat.le_antisymm hjk (tier_le hk))).2 (tier_top hj) rfl
    rw [if_neg h0, if_neg ht, home_binary hk (by omega)]
    exact within_tier (Nat.pos_of_ne_zero h0) hjk (tier_le hk)

theorem fits_right {op : String} {l r : Expr} {j : Nat} (hc : Child h p n c (.str "right") (.binary op l r) inner)
    (hj : Operator.tier? op = some j) : Fits h p inner (rightCategory j) := by
  refine fits_tight hc (tight_operand hc) (within_call_right (tier_le hj)) fun hb => ?_
  obtain ⟨op', l', r', rfl, -⟩ := isSome_tier hc.holds hb
  obtain ⟨v, hd⟩ := hc.exists_decide
  refine ⟨v, hd, fun hv => ?_⟩
  obtain ⟨k, hk, hclash, hjk, heq⟩ := tiers_of_bare hc hd hv hj
  have hlt : j < k := Nat.lt_of_le_of_ne hjk fun h => (heq h).1 rfl
  have hle := tier_le hk
  rw [home_binary hk (by omega)]
  unfold rightCategory
  split
  · rename_i h0
    subst h0
    obtain rfl := tier_zero hj
    exact within_tier (by decide) (coalesceTier_le hk hlt hclash) hle
  · rw [if_neg (by omega)]
    exact within_tier (Nat.succ_pos j) hlt hle

end Bracketing.Printing
