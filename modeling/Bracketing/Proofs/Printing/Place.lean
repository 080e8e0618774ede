import Bracketing.Proofs.Printing.Printer
import Bracketing.Proofs.Verdict.Leading

/-!
# Places of expressions

Where a path stands while an expression is printed. `Stands` says that a path is a trail of the standard grammar to a
value of an acyclic tree; `Nested` adds the node around the current one and the name that leads to it, which is all that
the rules about kinds look at, and `Child` the expressions that the two nodes hold. For the node of an expression under
the node of another, the verdict is what those rules say, and what the place says where they are silent
(`Nested.decide_eq`).
-/

namespace Bracketing.Printing

open Bracketing.Tree

variable {h : Heap} {p : Path}

/-! ## Kinds of expressions -/

/-- The kind of the node of an expression. -/
def Expr.kind : Expr → Kind
  | identifier _ => .identifier
  | number _ => .numericLiteral
  | object => .objectExpression
  | function _ => .functionExpression
  | binary op _ _ => Heap.binaryKind op
  | conditional _ _ _ => .conditional
  | assignment _ _ _ => .assignment
  | yield _ => .yield
  | call _ _ => .call
  | new _ _ => .new
  | dotted _ _ | computed _ _ => .member
  | sequence _ => .sequence
  | arrow _ _ => .arrowFunction
  | paren e => e.kind

/-- The kinds that expressions have. -/
def expressionKinds : List Kind :=
  [.identifier, .numericLiteral, .objectExpression, .functionExpression, .binary, .logical, .unary, .conditional,
    .assignment, .yield, .await, .call, .new, .member, .sequence, .arrowFunction]

theorem binaryKind_eq (op : String) : Heap.binaryKind op = .logical ∨ Heap.binaryKind op = .binary := by
  unfold Heap.binaryKind
  split
  · exact .inl rfl
  · exact .inr rfl

theorem Expr.kind_mem : ∀ e : Expr, e.kind ∈ expressionKinds
  | binary op _ _ => by rcases binaryKind_eq op with hk | hk <;> simp [Expr.kind, hk, expressionKinds]
  | paren e => e.kind_mem
  | identifier _ | number _ | object | function _ | conditional _ _ _ | assignment _ _ _ | yield _ | call _ _
  | new _ _ | dotted _ _ | computed _ _ | sequence _ | arrow _ _ => by simp [Expr.kind, expressionKinds]

/-- Expressions are nodes of the standard grammar, no statements and no parentheses. -/
theorem expressionKinds_plain : ∀ k ∈ expressionKinds,
    k ≠ .other ∧ k.tag ≠ "" ∧ isStatementTag k.tag = false ∧ k ≠ .parenthesized := by
  decide

/-- The value of an expression is a node of its kind. -/
theorem holds_isBare {v : Value} {e : Expr} (he : h.Holds v e) : ∃ n, h.IsBare v e.kind n := by
  cases e with
  | identifier | number | object | binary | conditional | assignment | yield | dotted | computed =>
    obtain ⟨n, hn, -⟩ := he
    exact ⟨n, hn⟩
  | function n => exact ⟨n, he⟩
  | call | new | sequence | arrow =>
    obtain ⟨n, l, hn, -⟩ := he
    exact ⟨n, hn⟩
  | paren => exact he.elim

theorem holds_node {n : NodeId} {e : Expr} (he : h.Holds (.node n) e) : h.IsBare (.node n) e.kind n := by
  obtain ⟨m, hm⟩ := holds_isBare he
  cases hm.value
  exact hm

theorem holdsAll_node {vs : List Value} {es : List Expr} (hes : h.HoldsAll vs es) : ∀ v ∈ vs, ∃ n, v = .node n := by
  induction vs generalizing es with
  | nil => simp
  | cons v vs ih =>
    cases es with
    | nil => exact hes.elim
    | cons e es =>
      obtain ⟨n, hn⟩ := holds_isBare hes.1
      exact List.forall_mem_cons.2 ⟨⟨n, hn.value⟩, ih hes.2⟩

/-- A sequence among the expressions holds nodes only. -/
theorem holds_flat {n : NodeId} {e : Expr} (he : h.Holds (.node n) e) : FlatSequence h n := by
  intro hk l hl
  have hkind := (holds_node he).kind
  rw [hk] at hkind
  cases e with
  | sequence es =>
    obtain ⟨m, li, hm, hli, -, hes⟩ := he
    cases hm.value
    simp only [Heap.elements, hli] at hl
    obtain ⟨c, hc⟩ := holdsAll_node hes _ hl
    cases hc
  | binary op l r => rcases binaryKind_eq op with hb | hb <;> simp [Expr.kind, hb] at hkind
  | paren => exact he.elim
  | _ => cases hkind

/-- An assignment among the expressions does not assign to a pattern. -/
theorem holds_left_ne_pattern {n : NodeId} {e : Expr} (he : h.Holds (.node n) e) :
    ¬ (h.kind (some n) = .assignment ∧ h.kind (h.child? n "left") = .objectPattern) := by
  rintro ⟨hk, hl⟩
  rw [(holds_node he).kind] at hk
  cases e with
  | assignment op t v =>
    obtain ⟨m, hm, -, -, -, ht, -⟩ := he
    cases hm.value
    obtain ⟨m', hm'⟩ := holds_isBare ht
    have hch : h.child? n "left" = some m' := by simp [Heap.child?, hm'.value]
    rw [hch, hm'.kind] at hl
    have := t.kind_mem
    rw [hl] at this
    exact absurd this (by decide)
  | binary op l r => rcases binaryKind_eq op with hb | hb <;> simp [Expr.kind, hb] at hk
  | paren => exact he.elim
  | _ => cases hk

/-- What verdicts ask about the node of an expression. -/
structure IsPart (h : Heap) (n : NodeId) (k : Kind) : Prop where
  bare : h.IsBare (.node n) k n
  mem : k ∈ expressionKinds
  flat : FlatSequence h n
  target : ¬ (h.kind (some n) = .assignment ∧ h.kind (h.child? n "left") = .objectPattern)

theorem IsPart.isNode {n : NodeId} {k : Kind} (hn : IsPart h n k) : Grammar.standard.isNode h (.node n) = true := by
  obtain ⟨ho, ht, -, -⟩ := expressionKinds_plain _ hn.mem
  simp [Grammar.standard, Heap.tag_of_kind hn.bare.kind ho, ht]

theorem holds_isPart {n : NodeId} {e : Expr} (he : h.Holds (.node n) e) : IsPart h n e.kind :=
  ⟨holds_node he, e.kind_mem, holds_flat he, holds_left_ne_pattern he⟩

/-! ## Where a path stands -/

/-- The path is a trail of the standard grammar to a value of an acyclic tree. -/
structure Stands (h : Heap) (p : Path) (v : Value) : Prop where
  standard : p.grammar = .standard
  trail : Trail .standard h p.stack
  flat : FlatStack h p.stack
  tip : ∃ rest, p.stack = v :: rest
  acyclic : h.Acyclic v

theorem stands_new {n : NodeId} {k : Kind} (hn : IsPart h n k) (ha : h.Acyclic (.node n)) :
    Stands h (Path.new (.node n)) (.node n) where
  standard := rfl
  trail := .root _
  flat m hm := by
    have : m = n := by simpa [Path.new, Path.ofStack, Stack.values] using hm
    exact this ▸ hn.flat
  tip := ⟨[], rfl⟩
  acyclic := ha

theorem Stands.down {v w name : Value} (hs : Stands h p v) (hv : Passes .standard h v)
    (hw : Path.resolve h v name = w) (hm : h.Member v w)
    (hf : ∀ n, w = .node n → FlatSequence h n) : Stands h (p.down h name) w := by
  obtain ⟨rest, hp⟩ := hs.tip
  have hstack : (p.down h name).stack = w :: name :: v :: rest := by rw [Path.down_stack hp, hw]
  refine ⟨by simp [hs.standard], ?_, ?_, ⟨_, hstack⟩, hs.acyclic.member hm⟩
  · rw [hstack, ← hw]
    exact .down name (hp ▸ hs.trail) hv
  · rw [hstack]
    intro n hn
    rcases List.mem_cons.1 hn with hn | hn
    · exact hf n hn.symm
    · exact hs.flat n (hp ▸ hn)

/-- The path stands at a node of a kind, under the node of another kind, which leads to it by a name. -/
structure Nested (h : Heap) (p : Path) (n c : NodeId) (name : Value) (outer inner : Kind) : Prop where
  stands : Stands h p (.node c)
  parent : p.parent h = some n
  name_eq : p.name = name
  around : IsPart h n outer
  inside : IsPart h c inner

/-- The path stands at the node of an expression, under the node of another, which leads to it by a name. -/
structure Child (h : Heap) (p : Path) (n c : NodeId) (name : Value) (outer inner : Expr) : Prop where
  stands : Stands h p (.node c)
  parent : p.parent h = some n
  name_eq : p.name = name
  around : h.Holds (.node n) outer
  holds : h.Holds (.node c) inner

/-- A field name that is not one of the names kept for the node itself. -/
abbrev IsField (k : String) : Prop := k ≠ "type" ∧ k ≠ "loc" ∧ k ≠ "extra"

section Down

variable {n c : NodeId} {l : ListId} {k : String} {i : Nat} {a b : Kind} (hs : Stands h p (.node n)) (hn : IsPart h n a)
  (hk : IsField k)
include hs hn hk

theorem Stands.nested_field (hget : h.get n k = .node c) (hc : IsPart h c b) :
    Nested h (p.down h (.str k)) n c (.str k) a b := by
  obtain ⟨rest, hp⟩ := hs.tip
  refine ⟨?_, ?_, Path.down_name hp _, hn, hc⟩
  · refine hs.down hn.isNode hget (Heap.member_of_get hk hget (by simp)) ?_
    intro m hm
    cases hm
    exact hc.flat
  · exact parent_field hp (hs.standard ▸ hn.isNode) (hs.standard ▸ hc.isNode) hget

/-- The path to a list in a field. -/
theorem Stands.list (hl : h.get n k = .list l) : Stands h (p.down h (.str k)) (.list l) :=
  hs.down hn.isNode hl (Heap.member_of_get hk hl (by simp)) (by intro m hm; cases hm)

theorem Stands.nested_element (hl : h.get n k = .list l) (hi : (h.list l)[i]? = some (.node c)) (hc : IsPart h c b) :
    Nested h ((p.down h (.str k)).down h (.index i)) n c (.index i) a b := by
  obtain ⟨rest, hp⟩ := hs.tip
  have hlist := hs.list hn hk hl
  obtain ⟨rest', hp'⟩ := hlist.tip
  refine ⟨?_, ?_, Path.down_name hp' _, hn, hc⟩
  · refine hlist.down trivial (resolve_element hi) (List.mem_of_getElem? hi) ?_
    intro m hm
    cases hm
    exact hc.flat
  · exact parent_element hp (hs.standard ▸ hn.isNode) (hs.standard ▸ hc.isNode) hl hi

end Down

theorem Stands.field {n : NodeId} {k : String} {outer inner : Expr} (hs : Stands h p (.node n))
    (ho : h.Holds (.node n) outer) (hk : IsField k) (hi : h.Holds (h.get n k) inner) :
    ∃ c, h.get n k = .node c ∧ Child h (p.down h (.str k)) n c (.str k) outer inner := by
  obtain ⟨c, hc⟩ := holds_isBare hi
  have hget := hc.value
  rw [hget] at hi
  have hnest := hs.nested_field (holds_isPart ho) hk hget (holds_isPart hi)
  exact ⟨c, hget, hnest.stands, hnest.parent, hnest.name_eq, ho, hi⟩

theorem Stands.element {n : NodeId} {l : ListId} {k : String} {i : Nat} {v : Value} {outer inner : Expr}
    (hs : Stands h p (.node n)) (ho : h.Holds (.node n) outer) (hk : IsField k) (hl : h.get n k = .list l)
    (hi : (h.list l)[i]? = some v) (hv : h.Holds v inner) :
    ∃ c, v = .node c ∧ Child h ((p.down h (.str k)).down h (.index i)) n c (.index i) outer inner := by
  obtain ⟨c, hc⟩ := holds_isBare hv
  obtain rfl := hc.value
  have hnest := hs.nested_element (holds_isPart ho) hk hl hi (holds_isPart hv)
  exact ⟨c, rfl, hnest.stands, hnest.parent, hnest.name_eq, ho, hv⟩

/-- The root gets no parentheses. -/
theorem IsPart.decide_root {n : NodeId} {k : Kind} (hn : IsPart h n k) :
    (Path.new (.node n)).decide h false = .ok ⟨false, .root⟩ := by
  have hp : (Path.new (.node n)).parent h = none := by
    rw [Path.parent_eq, lineage_eq _ _ none]
    simp [Path.new, Path.ofStack, ancestors_root hn.isNode]
  rw [Path.decide_node rfl hn.isNode, if_neg hn.target, hp]

/-! ## The verdict on a nested node -/

namespace Nested

variable {n c : NodeId} {name : Value} {outer inner : Kind} (hc : Nested h p n c name outer inner)
include hc

theorem isNode : p.grammar.isNode h (.node c) = true := hc.stands.standard ▸ hc.inside.isNode

theorem held : (⟨h, c, n, name⟩ : Site).Held := by
  obtain ⟨rest, hp⟩ := hc.stands.tip
  have ht := hc.stands.standard ▸ hc.stands.trail
  have hh := Trail.held ht hc.stands.flat hp hc.isNode hc.parent
  rwa [hc.name_eq] at hh

theorem exists_decide : ∃ v, p.decide h false = .ok v := by
  have ht : Trail p.grammar h p.stack := hc.stands.standard ▸ hc.stands.trail
  refine ht.exists_decide hc.stands.flat ?_ false
  intro m hm
  obtain ⟨rest, hp⟩ := hc.stands.tip
  rw [hp] at hm
  cases hm
  exact hc.stands.acyclic

theorem decide_eq_under : p.decide h false = p.decideUnder false ⟨h, c, n, name⟩ := by
  obtain ⟨rest, hp⟩ := hc.stands.tip
  rw [Path.decide_node hp hc.isNode, if_neg hc.inside.target, hc.parent, hc.name_eq]

theorem isStatement : p.grammar.isStatement h c = false := by
  obtain ⟨ho, -, hst, -⟩ := expressionKinds_plain _ hc.inside.mem
  rw [hc.stands.standard]
  simp [Grammar.standard, Heap.tag_of_kind hc.inside.bare.kind ho, hst]

/-- The verdict on a nested node is what the rules about kinds say, and what its place says where they are silent. -/
theorem decide_eq (hi : inner ≠ .identifier) : p.decide h false =
    ((⟨h, c, n, name⟩ : Site).byKind (p.parent h 1)).bind fun
      | some parens => .ok ⟨parens, .ofTag (h.node c).tag⟩
      | none => p.decideByPlace false ⟨h, c, n, name⟩ := by
  have hpar := (expressionKinds_plain _ hc.around.mem).2.2.2
  have h2 : (⟨h, c, n, name⟩ : Site).kind ≠ .identifier := fun he => hi (hc.inside.bare.kind.symm.trans he)
  have h3 : (⟨h, c, n, name⟩ : Site).parentKind ≠ .parenthesized := fun he => hpar (hc.around.bare.kind.symm.trans he)
  exact hc.decide_eq_under.trans (Path.decideUnder_eq hc.isStatement h2 h3 hc.inside.bare.unmarked)

theorem decide_of_byKind (hi : inner ≠ .identifier) {b : Bool}
    (hb : ∀ g, (⟨h, c, n, name⟩ : Site).byKind g = .ok (some b)) : ∃ r, p.decide h false = .ok ⟨b, r⟩ :=
  ⟨_, by rw [hc.decide_eq hi, hb]; rfl⟩

theorem decide_of_silent (hi : inner ≠ .identifier)
    (hb : ∀ g, (⟨h, c, n, name⟩ : Site).byKind g = .ok none) :
    p.decide h false = p.decideByPlace false ⟨h, c, n, name⟩ := by
  rw [hc.decide_eq hi, hb]
  rfl

theorem decide_identifier (hi : inner = .identifier) : p.decide h false = .ok ⟨false, .identifier⟩ := by
  have hkind : (⟨h, c, n, name⟩ : Site).kind = .identifier := hc.inside.bare.kind.trans hi
  rw [hc.decide_eq_under, Path.decideUnder]
  simp [hc.isStatement, hkind]

end Nested

/-- A nested node under a field name fills that slot of its parent. -/
theorem Nested.fills {n c : NodeId} {k : String} {outer inner : Kind} (hc : Nested h p n c (.str k) outer inner) :
    (⟨h, c, n, .str k⟩ : Site).fills k = true := by
  simp [Site.fills, Site.isUnder, hc.held k rfl]

/-! ## The verdict on a child -/

namespace Child

variable {n c : NodeId} {name : Value} {outer inner : Expr}

/-- The node and its parent, as the rules about kinds see them. -/
abbrev site (h : Heap) (n c : NodeId) (name : Value) : Site := ⟨h, c, n, name⟩

theorem nested (hc : Child h p n c name outer inner) : Nested h p n c name outer.kind inner.kind :=
  ⟨hc.stands, hc.parent, hc.name_eq, holds_isPart hc.around, holds_isPart hc.holds⟩

theorem outerKind (hc : Child h p n c name outer inner) : h.kind (some n) = outer.kind := (holds_node hc.around).kind

theorem isNode (hc : Child h p n c name outer inner) : p.grammar.isNode h (.node c) = true := hc.nested.isNode

theorem held (hc : Child h p n c name outer inner) : (site h n c name).Held := hc.nested.held

/-- A child under a field name fills that slot of its parent. -/
theorem fills {k : String} (hc : Child h p n c (.str k) outer inner) : (site h n c (.str k)).fills k = true :=
  hc.nested.fills

theorem exists_decide (hc : Child h p n c name outer inner) : ∃ v, p.decide h false = .ok v :=
  hc.nested.exists_decide

theorem decide_of_byKind (hc : Child h p n c name outer inner) (hi : inner.kind ≠ .identifier) {b : Bool}
    (hb : ∀ g, (site h n c name).byKind g = .ok (some b)) : ∃ r, p.decide h false = .ok ⟨b, r⟩ :=
  hc.nested.decide_of_byKind hi hb

end Child

end Bracketing.Printing
