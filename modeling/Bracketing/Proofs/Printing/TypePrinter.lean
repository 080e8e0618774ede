import Bracketing.Proofs.Printing.Printer
import Bracketing.Proofs.Printing.TypeReader
import Bracketing.Proofs.Verdict.Leading

/-!
# Printing types

`printType` writes the type of a node as terminals, going down the tree along a path, and puts a node in parentheses
exactly where the verdict at its path says so. Which type a node is, `Heap.HoldsType` tells.

The verdict on a type looks at the kind of its parent and the name that leads to it, and both together say which slot
the type fills (`TypeSlot.under`).

* **The verdict is that of the slot** (`Placed.decide`).
* **What is printed is the spelling** (`printType_eq`): by induction on the type.
* **One type** (`printType_injective`): two types that are printed alike as the right sides of aliases are the same.
-/

namespace Bracketing

open Bracketing.Tree

namespace Printing

/-! ## The printer -/

mutual

/-- The terminals of the type at the tip of a path. -/
def printType (h : Heap) (p : Path) : TypeExpr → Except Stop (List Terminal)
  | .leaf s => enclose h p [.identifier s]
  | .joined c a b more => do
    let as ← printType h ((p.down h (.str "types")).down h (.index 0)) a
    let bs ← printType h ((p.down h (.str "types")).down h (.index 1)) b
    let us ← printTypes h (p.down h (.str "types")) 2 more
    enclose h p ([.operator c.text].intercalate (as :: bs :: us))
  | .nullable t => do
    let ts ← printType h (p.down h (.str "typeAnnotation")) t
    enclose h p (.question :: ts)
  | .array t => do
    let ts ← printType h (p.down h (.str "elementType")) t
    enclose h p (ts ++ [.lbracket, .rbracket])
  | .function ps r => do
    let us ← printTypes h (p.down h (.str "params")) 0 ps
    let ts ← printType h (p.down h (.str "returnType")) r
    enclose h p (.lparen :: separated us ++ .rparen :: .arrow :: ts)
  | .indexed false o k => do
    let ts ← printType h (p.down h (.str "objectType")) o
    let us ← printType h (p.down h (.str "indexType")) k
    enclose h p (ts ++ .lbracket :: us ++ [.rbracket])
  | .indexed true o k => do
    let ts ← printType h (p.down h (.str "objectType")) o
    let us ← printType h (p.down h (.str "indexType")) k
    enclose h p (ts ++ .operator "?." :: .lbracket :: us ++ [.rbracket])

/-- The terminals of types at the elements of the list at the tip of a path, from an index on. -/
def printTypes (h : Heap) (p : Path) (i : Nat) : List TypeExpr → Except Stop (List (List Terminal))
  | [] => .ok []
  | t :: ts => do
    let us ← printType h (p.down h (.index i)) t
    return us :: (← printTypes h p (i + 1) ts)

end

/-- The kind of the nodes that a connective joins. -/
def Connective.kind : Connective → Kind
  | union => .unionType
  | intersection => .intersectionType

/-- The kind of the node of a type. -/
def TypeExpr.kind : TypeExpr → Kind
  | leaf _ => .other
  | joined c _ _ _ => c.kind
  | nullable _ => .nullableType
  | array _ => .arrayType
  | function _ _ => .functionType
  | indexed false _ _ => .indexedAccess
  | indexed true _ _ => .optionalIndexedAccess

/-- The slot that a type fills under a node of a kind, by the name that leads to it. -/
def TypeSlot.under (outer : Kind) (name : Value) : TypeSlot :=
  match outer with
  | .unionType | .intersectionType | .nullableType => .operand
  | .arrayType => .element
  | .optionalIndexedAccess => if name = .str "objectType" then .element else .whole
  | .indexedAccess => if name = .str "objectType" then .object else .whole
  | _ => .whole

end Printing

namespace Tree.Heap

open Printing

/-- What a type without parts is called: by the identifier that it holds, or else by its own tag. -/
def typeName (h : Heap) (n : NodeId) : String :=
  match h.child? n "id" with
  | some m => if h.kind (some m) = .identifier then h.textAt m "name" else (h.node n).tag
  | none => (h.node n).tag

mutual

/-- The value is a type. None of its nodes is marked as having stood in parentheses. -/
def HoldsType (h : Heap) (v : Value) : TypeExpr → Prop
  | .leaf s => ∃ n, h.IsBare v .other n ∧ (h.node n).tag ≠ "" ∧ h.typeName n = s
  | .joined c a b more => ∃ n l v₁ v₂ vs, h.IsBare v c.kind n ∧ h.get n "types" = .list l ∧
      h.list l = v₁ :: v₂ :: vs ∧ h.HoldsType v₁ a ∧ h.HoldsType v₂ b ∧ h.HoldsTypes vs more
  | .nullable t => ∃ n, h.IsBare v .nullableType n ∧ h.HoldsType (h.get n "typeAnnotation") t
  | .array t => ∃ n, h.IsBare v .arrayType n ∧ h.HoldsType (h.get n "elementType") t
  | .function ps r => ∃ n l, h.IsBare v .functionType n ∧ h.get n "params" = .list l ∧ h.HoldsTypes (h.list l) ps ∧
      h.HoldsType (h.get n "returnType") r
  | .indexed false o k => ∃ n, h.IsBare v .indexedAccess n ∧ h.HoldsType (h.get n "objectType") o ∧
      h.HoldsType (h.get n "indexType") k
  | .indexed true o k => ∃ n, h.IsBare v .optionalIndexedAccess n ∧ h.HoldsType (h.get n "objectType") o ∧
      h.HoldsType (h.get n "indexType") k

/-- The values are types. -/
def HoldsTypes (h : Heap) : List Value → List TypeExpr → Prop
  | [], [] => True
  | v :: vs, t :: ts => h.HoldsType v t ∧ h.HoldsTypes vs ts
  | _, _ => False

end

end Tree.Heap

namespace Printing

variable {h : Heap} {p : Path} {n c : NodeId} {slot : TypeSlot} {t outer inner : TypeExpr}

/-! ## Nodes of types -/

/-- Nodes with parts are no statements. -/
theorem TypeExpr.kind_cases : ∀ t : TypeExpr,
    (∃ s, t = leaf s) ∨ (t.kind ≠ .other ∧ t.kind.tag ≠ "" ∧ isStatementTag t.kind.tag = false)
  | leaf s => .inl ⟨s, rfl⟩
  | joined .union _ _ _ | joined .intersection _ _ _ | nullable _ | array _ | function _ _ | indexed false _ _
  | indexed true _ _ => .inr (by simp only [kind, Connective.kind]; decide)

/-- The rules that are not about types do not apply to them. -/
theorem TypeExpr.kind_apart (t : TypeExpr) :
    t.kind ≠ .new ∧ t.kind ≠ .parenthesized ∧ t.kind ≠ .identifier ∧ t.kind ≠ .assignment := by
  match t with
  | leaf _ | joined .union _ _ _ | joined .intersection _ _ _ | nullable _ | array _ | function _ _
  | indexed false _ _ | indexed true _ _ => simp [kind, Connective.kind]

/-- Types may begin statements. -/
theorem TypeExpr.mayLead (t : TypeExpr) (hk : h.kind (some n) = t.kind) : mayLead h (some n) = true := by
  match t with
  | leaf _ | joined .union _ _ _ | joined .intersection _ _ _ | nullable _ | array _ | function _ _
  | indexed false _ _ | indexed true _ _ => simp [Bracketing.mayLead, isLetBracket, hk, kind, Connective.kind]

/-- The value of a type is a node of its kind. -/
theorem holdsType_isBare {v : Value} (ht : h.HoldsType v t) : ∃ n, h.IsBare v t.kind n ∧ (h.node n).tag ≠ "" := by
  have htag : ∀ {n}, h.IsBare v t.kind n → (∀ s, t ≠ .leaf s) → (h.node n).tag ≠ "" := fun hn hl => by
    obtain ⟨s, rfl⟩ | ⟨ho, hne, -⟩ := t.kind_cases
    · exact absurd rfl (hl s)
    · rwa [Heap.tag_of_kind hn.kind ho]
  match t, ht with
  | .leaf s, ⟨n, hn, hne, _⟩ => exact ⟨n, hn, hne⟩
  | .joined _ _ _ _, ⟨n, _, _, _, _, hn, _⟩ => exact ⟨n, hn, htag hn (by simp)⟩
  | .function _ _, ⟨n, _, hn, _⟩ => exact ⟨n, hn, htag hn (by simp)⟩
  | .nullable _, ⟨n, hn, _⟩ | .array _, ⟨n, hn, _⟩ | .indexed false _ _, ⟨n, hn, _⟩
  | .indexed true _ _, ⟨n, hn, _⟩ => exact ⟨n, hn, htag hn (by simp)⟩

theorem holdsType_node (ht : h.HoldsType (.node n) t) : h.IsBare (.node n) t.kind n := by
  obtain ⟨m, hm, -⟩ := holdsType_isBare ht
  cases hm.value
  exact hm

theorem isNode_of_holdsType (ht : h.HoldsType (.node n) t) : Grammar.standard.isNode h (.node n) = true := by
  obtain ⟨m, hm, hne⟩ := holdsType_isBare ht
  cases hm.value
  simp [Grammar.standard, hne]

/-! ## The verdict on a type -/

theorem TypeSlot.under_eq_object (k : Kind) (name : Value) :
    TypeSlot.under k name = .object ↔ name = .str "objectType" ∧ k = .indexedAccess := by
  unfold TypeSlot.under
  split <;> grind

/-- Brackets come after the elements of arrays and after object types. -/
theorem TypeSlot.under_tight (k : Kind) (name : Value) :
    (TypeSlot.under k name = .element ∨ TypeSlot.under k name = .object) ↔
      k = .arrayType ∨ name = .str "objectType" ∧ (k = .indexedAccess ∨ k = .optionalIndexedAccess) := by
  unfold TypeSlot.under
  split <;> grind

theorem TypeSlot.under_ne_whole (k : Kind) (name : Value) :
    TypeSlot.under k name ≠ .whole ↔ k = .unionType ∨ k = .intersectionType ∨ k = .nullableType ∨ k = .arrayType ∨
      name = .str "objectType" ∧ (k = .indexedAccess ∨ k = .optionalIndexedAccess) := by
  unfold TypeSlot.under
  split <;> grind

/-- The rules about kinds say what the slot says, or nothing where the slot asks for no parentheses. -/
theorem byKind_type {s : Site} (hk : s.kind = t.kind) (g : Option NodeId) :
    s.byKind g = .ok (some (t.parens (.under s.parentKind s.name))) ∨
      s.byKind g = .ok none ∧ t.parens (.under s.parentKind s.name) = false := by
  have hobject := TypeSlot.under_eq_object s.parentKind s.name
  have htight := TypeSlot.under_tight s.parentKind s.name
  have hwhole := TypeSlot.under_ne_whole s.parentKind s.name
  match t with
  | .leaf _ | .array _ | .indexed false _ _ => exact .inr ⟨by simp [Site.byKind, hk, TypeExpr.kind], rfl⟩
  | .joined .union _ _ _ | .joined .intersection _ _ _ | .nullable _ | .function _ _ | .indexed true _ _ =>
    -- The node around a nullable type does not matter: a function type below has its parentheses anyway.
    refine .inl ?_
    simp only [Site.byKind, hk, TypeExpr.kind, Connective.kind, TypeExpr.parens, Site.isObjectType, Site.isUnder]
    grind

/-- The path stands at a node that fills a slot of its parent. -/
structure Placed (h : Heap) (p : Path) (c : NodeId) (slot : TypeSlot) : Prop where
  standard : p.grammar = .standard
  tip : ∃ rest, p.stack = .node c :: rest
  under : ∃ n, p.parent h = some n ∧ h.kind (some n) ≠ .new ∧ h.kind (some n) ≠ .parenthesized ∧
    .under (h.kind (some n)) p.name = slot

/-- Types and aliases hold types in slots. -/
theorem placed_field {rest : List Value} {k : String} (hg : p.grammar = .standard) (hs : p.stack = .node n :: rest)
    (hn : Grammar.standard.isNode h (.node n) = true) (hnew : h.kind (some n) ≠ .new)
    (hpar : h.kind (some n) ≠ .parenthesized) (hi : h.HoldsType (h.get n k) inner) :
    ∃ c, Placed h (p.down h (.str k)) c (.under (h.kind (some n)) (.str k)) ∧ h.HoldsType (.node c) inner := by
  obtain ⟨c, hc, -⟩ := holdsType_isBare hi
  have hget := hc.value
  rw [hget] at hi
  refine ⟨c, ⟨by simp [hg], ⟨_, by rw [Path.down_stack hs, resolve_field, hget]⟩, n, ?_, hnew, hpar, ?_⟩, hi⟩
  · exact parent_field hs (hg ▸ hn) (hg ▸ isNode_of_holdsType hi) hget
  · rw [Path.down_name hs]

namespace Placed

theorem field {k : String} (hp : Placed h p n slot) (ho : h.HoldsType (.node n) outer)
    (hi : h.HoldsType (h.get n k) inner) :
    ∃ c, Placed h (p.down h (.str k)) c (.under outer.kind (.str k)) ∧ h.HoldsType (.node c) inner := by
  obtain ⟨rest, hs⟩ := hp.tip
  obtain ⟨hnew, hpar, -, -⟩ := outer.kind_apart
  have hkind := (holdsType_node ho).kind
  rw [← hkind] at hnew hpar ⊢
  exact placed_field hp.standard hs (isNode_of_holdsType ho) hnew hpar hi

theorem element {k : String} {l : ListId} {i : Nat} {v : Value} (hp : Placed h p n slot)
    (ho : h.HoldsType (.node n) outer) (hl : h.get n k = .list l) (hi : (h.list l)[i]? = some v)
    (hv : h.HoldsType v inner) :
    ∃ c, Placed h ((p.down h (.str k)).down h (.index i)) c (.under outer.kind (.index i)) ∧
      h.HoldsType (.node c) inner := by
  obtain ⟨c, hc, -⟩ := holdsType_isBare hv
  obtain rfl := hc.value
  obtain ⟨rest, hs⟩ := hp.tip
  obtain ⟨hnew, hpar, -, -⟩ := outer.kind_apart
  have hkind := (holdsType_node ho).kind
  have hg := hp.standard
  have hs' : (p.down h (.str k)).stack = .list l :: .str k :: .node n :: rest := by
    rw [Path.down_stack hs, resolve_field, hl]
  refine ⟨c, ⟨by simp [hg], ⟨_, by rw [Path.down_stack hs', resolve_element hi]⟩, n, ?_, ?_⟩, hv⟩
  · exact parent_element hs (hg ▸ isNode_of_holdsType ho) (hg ▸ isNode_of_holdsType hv) hl hi
  · rw [hkind, Path.down_name hs']
    exact ⟨hnew, hpar, rfl⟩

/-- **The verdict is that of the slot.** -/
theorem decide (hp : Placed h p c slot) (ht : h.HoldsType (.node c) t) :
    ∃ r, p.decide h false = .ok ⟨t.parens slot, r⟩ := by
  obtain ⟨rest, hs⟩ := hp.tip
  obtain ⟨n, hparent, hnew, hpar, rfl⟩ := hp.under
  obtain ⟨-, -, hid, hassign⟩ := t.kind_apart
  have hb := holdsType_node ht
  have hn : p.grammar.isNode h (.node c) = true := hp.standard ▸ isNode_of_holdsType ht
  have hk : Site.kind ⟨h, c, n, p.name⟩ = t.kind := hb.kind
  have hunder : p.decide h false = p.decideUnder false ⟨h, c, n, p.name⟩ := by
    rw [Path.decide_node hs hn, if_neg (fun hx => hassign (hb.kind.symm.trans hx.1)), hparent]
  rw [hunder]
  by_cases hst : p.grammar.isStatement h c = true
  · -- Only a type without parts may have the tag of a statement.
    obtain ⟨s, rfl⟩ | ⟨ho, -, hno⟩ := t.kind_cases
    · exact ⟨.statement, by simp [Path.decideUnder, hst, TypeExpr.parens]⟩
    · rw [hp.standard] at hst
      simp [Grammar.standard, Heap.tag_of_kind hb.kind ho, hno] at hst
  · have hkinds : p.decideUnder false ⟨h, c, n, p.name⟩ = _ :=
      Path.decideUnder_eq (Bool.eq_false_of_not_eq_true hst) (hk ▸ hid) hpar hb.unmarked
    rw [hkinds]
    obtain hby | ⟨hby, hno⟩ := byKind_type hk (p.parent h 1)
    · exact ⟨_, by rw [hby]; rfl⟩
    · have hlead : mayLead h (some c) = true := t.mayLead hb.kind
      have hplace : p.decideByPlace false ⟨h, c, n, p.name⟩ = .ok ⟨false, .default⟩ := by
        simp [Path.decideByPlace, hlead, hnew, Site.parentKind]
      have hbare : t.parens (.under (h.kind (some n)) p.name) = false := hno
      rw [hby, hbare]
      exact ⟨.default, hplace⟩

end Placed

/-- A type is printed as it is spelled if its parts are. -/
theorem enclose_type {us : List Terminal} (hp : Placed h p c slot) (ht : h.HoldsType (.node c) t)
    (hu : us = t.spell .whole) : enclose h p us = .ok (t.spell slot) := by
  obtain ⟨r, hr⟩ := hp.decide ht
  rw [enclose, hr, TypeExpr.spell_eq slot, hu]
  rfl

/-! ## What is printed -/

/-- The type is printed as it is spelled, wherever it is placed. -/
def PrintsAsSpelled (h : Heap) (t : TypeExpr) : Prop :=
  ∀ (p : Path) (n : NodeId) (slot : TypeSlot), Placed h p n slot → h.HoldsType (.node n) t →
    printType h p t = .ok (t.spell slot)

theorem PrintsAsSpelled.field {k : String} (ih : PrintsAsSpelled h inner) (hp : Placed h p n slot)
    (ho : h.HoldsType (.node n) outer) (hi : h.HoldsType (h.get n k) inner) :
    printType h (p.down h (.str k)) inner = .ok (inner.spell (.under outer.kind (.str k))) := by
  obtain ⟨c, hc, ht⟩ := hp.field ho hi
  exact ih _ c _ hc ht

theorem PrintsAsSpelled.element {k : String} {l : ListId} {i : Nat} {v : Value} (ih : PrintsAsSpelled h inner)
    (hp : Placed h p n slot) (ho : h.HoldsType (.node n) outer) (hl : h.get n k = .list l)
    (hi : (h.list l)[i]? = some v) (hv : h.HoldsType v inner) :
    printType h ((p.down h (.str k)).down h (.index i)) inner =
      .ok (inner.spell (.under outer.kind (.index i))) := by
  obtain ⟨c, hc, ht⟩ := hp.element ho hl hi hv
  exact ih _ c _ hc ht

mutual

/-- **What is printed is the spelling.** -/
theorem printType_eq : ∀ t : TypeExpr, PrintsAsSpelled h t
  | .leaf s, _, _, _, hp, ht => enclose_type hp ht rfl
  | .joined c a b more, p, n, slot, hp, ht => by
    obtain ⟨m, l, v₁, v₂, vs, hm, hl, hvs, ha, hb, hmore⟩ := id ht
    cases hm.value
    have hslot : ∀ i, TypeSlot.under (TypeExpr.joined c a b more).kind (.index i) = .operand := by
      intro i
      cases c <;> rfl
    have h₁ : printType h ((p.down h (.str "types")).down h (.index 0)) a = .ok (a.spell .operand) := by
      rw [← hslot 0]
      exact (printType_eq a).element (i := 0) hp ht hl (by rw [hvs]; rfl) ha
    have h₂ : printType h ((p.down h (.str "types")).down h (.index 1)) b = .ok (b.spell .operand) := by
      rw [← hslot 1]
      exact (printType_eq b).element (i := 1) hp ht hl (by rw [hvs]; rfl) hb
    have hs := printTypes_eq more hp ht hl hslot 2 (by rw [hvs]; exact hmore)
    rw [printType, h₁, h₂, hs]
    exact enclose_type hp ht rfl
  | .nullable t, p, n, slot, hp, ht | .array t, p, n, slot, hp, ht => by
    obtain ⟨m, hm, hi⟩ := id ht
    cases hm.value
    rw [printType, (printType_eq t).field hp ht hi]
    exact enclose_type hp ht rfl
  | .function ps r, p, n, slot, hp, ht => by
    obtain ⟨m, l, hm, hl, hps, hr⟩ := id ht
    cases hm.value
    have hs := printTypes_eq ps hp ht hl (fun i => rfl : ∀ i, _ = TypeSlot.whole) 0 hps
    rw [printType, hs, (printType_eq r).field hp ht hr]
    exact enclose_type hp ht rfl
  | .indexed false o k, p, n, slot, hp, ht | .indexed true o k, p, n, slot, hp, ht => by
    obtain ⟨m, hm, ho, hk⟩ := id ht
    cases hm.value
    rw [printType, (printType_eq o).field hp ht ho, (printType_eq k).field hp ht hk]
    exact enclose_type hp ht rfl

/-- The elements of a list are printed as they are spelled in the slots that they fill. -/
theorem printTypes_eq : ∀ (ts : List TypeExpr) {p : Path} {n : NodeId} {slot inside : TypeSlot} {outer : TypeExpr}
    {l : ListId} {k : String}, Placed h p n slot → h.HoldsType (.node n) outer → h.get n k = .list l →
    (∀ i, .under outer.kind (.index i) = inside) → ∀ i, h.HoldsTypes ((h.list l).drop i) ts →
    printTypes h (p.down h (.str k)) i ts = .ok (TypeExpr.spellAll inside ts)
  | [], _, _, _, _, _, _, _, _, _, _, _, _, _ => rfl
  | t :: ts, p, n, slot, inside, outer, l, k, hp, ho, hl, hin, i, hts => by
    cases hd : (h.list l).drop i with
    | nil =>
      rw [hd] at hts
      exact hts.elim
    | cons v rest =>
      obtain ⟨hi, hrest⟩ := drop_eq_cons hd
      rw [hd] at hts
      have ih := printTypes_eq ts hp ho hl hin (i + 1) (hrest ▸ hts.2)
      rw [printTypes, (printType_eq t).element hp ho hl hi hts.1, hin i, ih]
      rfl

end

/-! ## Aliases -/

/-- The right side of an alias is printed as a whole type. -/
theorem printType_alias {root : NodeId} (hr : (h.node root).tag = "TypeAlias")
    (ht : h.HoldsType (h.get root "right") t) :
    printType h ((Path.new (.node root)).down h (.str "right")) t = .ok (t.spell .whole) := by
  have hk : h.kind (some root) = .other := by rw [Heap.kind, hr]; decide
  have hn : Grammar.standard.isNode h (.node root) = true := by simp [Grammar.standard, hr]
  obtain ⟨c, hc, ht'⟩ := placed_field (p := .new (.node root)) rfl rfl hn (by simp [hk]) (by simp [hk]) ht
  rw [hk] at hc
  exact printType_eq t _ c _ hc ht'

/-- **One type.** Two types that are printed alike as the right sides of aliases, with parentheses where the verdicts ask
for them, are the same. -/
theorem printType_injective (h h' : Heap) (root root' : NodeId) (t t' : TypeExpr)
    (hr : (h.node root).tag = "TypeAlias") (hr' : (h'.node root').tag = "TypeAlias")
    (ht : h.HoldsType (h.get root "right") t) (ht' : h'.HoldsType (h'.get root' "right") t') :
    ∃ ts ts', printType h ((Path.new (.node root)).down h (.str "right")) t = .ok ts ∧
      printType h' ((Path.new (.node root')).down h' (.str "right")) t' = .ok ts' ∧ (ts = ts' → t = t') :=
  ⟨_, _, printType_alias hr ht, printType_alias hr' ht', TypeExpr.spell_injective⟩

/-- The nodes of two aliases, of `(?(A | B))[]` and of `?(A | B)[]`, each the last of its own nodes. -/
def nullableArrays : Heap where
  nodes := #[
    { tag := "A" },
    { tag := "Identifier", fields := .ofEntries [("name", .str "B")] },
    { tag := "GenericTypeAnnotation", fields := .ofEntries [("id", .node ⟨1⟩)] },
    { tag := "UnionTypeAnnotation", fields := .ofEntries [("types", .list ⟨0⟩)] },
    { tag := "NullableTypeAnnotation", fields := .ofEntries [("typeAnnotation", .node ⟨3⟩)] },
    { tag := "ArrayTypeAnnotation", fields := .ofEntries [("elementType", .node ⟨4⟩)] },
    { tag := "TypeAlias", fields := .ofEntries [("right", .node ⟨5⟩)] },
    { tag := "ArrayTypeAnnotation", fields := .ofEntries [("elementType", .node ⟨3⟩)] },
    { tag := "NullableTypeAnnotation", fields := .ofEntries [("typeAnnotation", .node ⟨7⟩)] },
    { tag := "TypeAlias", fields := .ofEntries [("right", .node ⟨8⟩)] }]
  lists := #[[.node ⟨0⟩, .node ⟨2⟩]]

/-- The type `A | B`. -/
def eitherType : TypeExpr := .joined .union (.leaf "A") (.leaf "B") []

theorem holdsType_either : nullableArrays.HoldsType (.node ⟨3⟩) eitherType := by
  refine ⟨⟨3⟩, ⟨0⟩, .node ⟨0⟩, .node ⟨2⟩, [], ⟨rfl, by decide, by decide⟩, by decide, by decide, ?_, ?_, trivial⟩
  · exact ⟨⟨0⟩, ⟨rfl, by decide, by decide⟩, by decide, by decide⟩
  · exact ⟨⟨2⟩, ⟨rfl, by decide, by decide⟩, by decide, by decide⟩

theorem printType_injective_nullableArrays :
    ∃ ts ts', printType nullableArrays ((Path.new (.node ⟨6⟩)).down nullableArrays (.str "right"))
        (.array (.nullable eitherType)) = .ok ts ∧
      printType nullableArrays ((Path.new (.node ⟨9⟩)).down nullableArrays (.str "right"))
        (.nullable (.array eitherType)) = .ok ts' ∧
      (ts = ts' → TypeExpr.array (.nullable eitherType) = .nullable (.array eitherType)) := by
  refine printType_injective nullableArrays nullableArrays ⟨6⟩ ⟨9⟩ _ _ (by decide) (by decide) ?_ ?_
  · exact ⟨⟨5⟩, ⟨rfl, by decide, by decide⟩, ⟨4⟩, ⟨rfl, by decide, by decide⟩, holdsType_either⟩
  · exact ⟨⟨8⟩, ⟨rfl, by decide, by decide⟩, ⟨7⟩, ⟨rfl, by decide, by decide⟩, holdsType_either⟩

example : (printType nullableArrays ((Path.new (.node ⟨6⟩)).down nullableArrays (.str "right"))
    (.array (.nullable eitherType))).toOption = some [.lparen, .question, .lparen, .identifier "A", .operator "|",
      .identifier "B", .rparen, .rparen, .lbracket, .rbracket] := by
  decide

end Printing

end Bracketing
