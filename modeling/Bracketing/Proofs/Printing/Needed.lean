import Bracketing.Proofs.Printing.Faithful
import Bracketing.Proofs.Printing.Tiers

/-!
# No pair of parentheses between operators is idle

A tree of binary operators is printed with parentheses at the spots where the verdicts ask for them (`print_eq_mark`), and
the tier grammar reads it back (`isPhrase_mark`). If one pair is left out, the tokens are still a phrase, but of another
tree: the only tree that has these tokens and the old operators is the old one without that pair
(`OpTree.flat_injective`), and it is no phrase, since the operator at the spot is too loose for its place
(`Child.lt_least`, `OpTree.IsPhrase.least_le`). How far the operators around the spot regroup does not matter.

Two sorts of pairs are left aside (`Idle`): around a `**` to the right of a `**`, and between `??` and the operators that
must not stand beside it.
-/

namespace Bracketing.Printing

open Bracketing.Tree

/-! ## Spots -/

/-- One of the two operands of an operator. -/
inductive Side where
  | left
  | right
  deriving DecidableEq

namespace Side

/-- The field of the operand. -/
def field : Side → String
  | left => "left"
  | right => "right"

/-- The operand. -/
def operand : Side → OpTree → OpTree → OpTree
  | left, l, _ => l
  | right, _, r => r

/-- The least tier of the operand of an operator of a tier. -/
def least : Side → Nat → Nat
  | left => leftLeast
  | right => rightLeast

theorem isField (side : Side) : IsField side.field := by
  cases side <;> decide

theorem le_least (side : Side) (k : Nat) : k ≤ side.least k := by
  cases side <;> simp only [least, leftLeast, rightLeast] <;> split <;> omega

end Side

namespace OpTree

/-- The tree as an expression. -/
def expr : OpTree → Expr
  | identifier s => .identifier s
  | binary op l r => .binary op l.expr r.expr
  | paren e => .paren e.expr

/-- The part of a tree at a spot, which gives the sides on the way to it from the whole. -/
def part? : OpTree → List Side → Option OpTree
  | e, [] => some e
  | binary _ l _, .left :: spot => l.part? spot
  | binary _ _ r, .right :: spot => r.part? spot
  | _, _ => none

/-- The tree, in parentheses or not. -/
def enclosed (parens : Bool) (e : OpTree) : OpTree := if parens then .paren e else e

/-- The tree with parentheses around the parts at the spots that a test picks. -/
def mark (parens : List Side → Bool) : OpTree → OpTree
  | identifier s => enclosed (parens []) (.identifier s)
  | binary op l r => enclosed (parens [])
      (.binary op (l.mark fun spot => parens (.left :: spot)) (r.mark fun spot => parens (.right :: spot)))
  | paren e => .paren e

theorem bare_enclosed (b : Bool) (e : OpTree) : (enclosed b e).bare = e.bare := by
  cases b <;> rfl

theorem bare_mark (parens : List Side → Bool) (t : OpTree) : (t.mark parens).bare = t.bare := by
  induction t generalizing parens with
  | identifier s => exact bare_enclosed _ _
  | binary op l r hl hr => rw [mark, bare_enclosed, bare, hl, hr, bare]
  | paren e => rfl

theorem tiered_enclosed {b : Bool} {e : OpTree} (he : e.Tiered) : (enclosed b e).Tiered := by
  cases b <;> exact he

theorem tiered_mark (parens : List Side → Bool) {t : OpTree} (ht : t.Tiered) : (t.mark parens).Tiered := by
  induction t generalizing parens with
  | identifier s => exact tiered_enclosed trivial
  | binary op l r hl hr => exact tiered_enclosed ⟨ht.1, hl _ ht.2.1, hr _ ht.2.2⟩
  | paren e => exact ht

end OpTree

/-- The test of spots that no longer picks one of them. -/
def sparing (parens : List Side → Bool) (spot : List Side) : List Side → Bool := fun s => parens s && s ≠ spot

section Sparing

variable {parens : List Side → Bool} {spot : List Side}

theorem sparing_self : sparing parens spot spot = false := by simp [sparing]

theorem sparing_of_ne {s : List Side} (hs : s ≠ spot) : sparing parens spot s = parens s := by simp [sparing, hs]

/-- Below a side that leads to the spot, the rest of the spot is spared. -/
theorem sparing_below (side : Side) :
    (fun s => sparing parens (side :: spot) (side :: s)) = sparing (fun s => parens (side :: s)) spot := by
  funext s
  simp [sparing]

/-- Below the other side nothing is spared. -/
theorem sparing_beside {side other : Side} (hne : other ≠ side) :
    (fun s => sparing parens (side :: spot) (other :: s)) = fun s => parens (other :: s) := by
  funext s
  exact sparing_of_ne (by simp [hne])

end Sparing

namespace OpTree

theorem part?_nil (e : OpTree) : e.part? [] = some e := by
  cases e <;> rfl

theorem part?_cons (op : String) (l r : OpTree) (side : Side) (spot : List Side) :
    (OpTree.binary op l r).part? (side :: spot) = (side.operand l r).part? spot := by
  cases side <;> rfl

/-- The parenthesis before a tree, if there is one. -/
def opening (parens : Bool) : List Terminal := if parens then [.lparen] else []

/-- The parenthesis after a tree, if there is one. -/
def closing (parens : Bool) : List Terminal := if parens then [.rparen] else []

theorem flat_enclosed (b : Bool) (e : OpTree) : (enclosed b e).flat = opening b ++ e.flat ++ closing b := by
  cases b <;> simp [enclosed, flat, opening, closing]

/-- Leaving out the pair at a spot takes its two parentheses from the tokens and nothing else. -/
theorem flat_sparing {op : String} {l r : OpTree} {spot : List Side} : ∀ (t : OpTree) (parens : List Side → Bool),
    t.part? spot = some (.binary op l r) → parens spot = true → ∃ before inside after,
      (t.mark parens).flat = before ++ .lparen :: inside ++ .rparen :: after ∧
      ((OpTree.binary op l r).mark fun s => parens (spot ++ s)).flat = .lparen :: inside ++ [.rparen] ∧
      (t.mark (sparing parens spot)).flat = before ++ inside ++ after := by
  induction spot with
  | nil =>
    intro t parens ht hspot
    rw [part?_nil] at ht
    cases ht
    have hbelow : ∀ side : Side, (fun s => sparing parens [] (side :: s)) = fun s => parens (side :: s) :=
      fun side => funext fun s => sparing_of_ne (by simp)
    refine ⟨[], (OpTree.binary op (l.mark fun s => parens (.left :: s)) (r.mark fun s => parens (.right :: s))).flat, [],
      ?_, ?_, ?_⟩
    · simp [mark, hspot, flat_enclosed, opening, closing]
    · simp [mark, hspot, flat_enclosed, opening, closing]
    · rw [mark, sparing_self, hbelow, hbelow, flat_enclosed]
      simp [opening, closing]
  | cons side spot ih =>
    intro t parens ht hspot
    have hhere : sparing parens (side :: spot) [] = parens [] := sparing_of_ne (by simp)
    cases t with
    | identifier s => simp [part?] at ht
    | paren e => simp [part?] at ht
    | binary op' l' r' =>
      cases side with
      | left =>
        obtain ⟨before, inside, after, hall, hpart, hwithout⟩ := ih l' (fun s => parens (.left :: s)) ht hspot
        refine ⟨opening (parens []) ++ before, inside,
          after ++ .operator op' :: (r'.mark fun s => parens (.right :: s)).flat ++ closing (parens []), ?_, hpart, ?_⟩
        · rw [mark, flat_enclosed, flat, hall]
          simp
        · rw [mark, hhere, sparing_below, sparing_beside (by simp), flat_enclosed, flat, hwithout]
          simp
      | right =>
        obtain ⟨before, inside, after, hall, hpart, hwithout⟩ := ih r' (fun s => parens (.right :: s)) ht hspot
        refine ⟨opening (parens []) ++ (l'.mark fun s => parens (.left :: s)).flat ++ .operator op' :: before, inside,
          after ++ closing (parens []), ?_, hpart, ?_⟩
        · rw [mark, flat_enclosed, flat, hall]
          simp
        · rw [mark, hhere, sparing_below, sparing_beside (by simp), flat_enclosed, flat, hwithout]
          simp

end OpTree

/-! ## What is printed -/

/-- The path to a spot. -/
def spotPath (h : Heap) (p : Path) (spot : List Side) : Path := spot.foldl (fun q side => q.down h (.str side.field)) p

/-- The verdict at the path asks for parentheses. -/
def asks (h : Heap) (p : Path) : Bool :=
  match p.decide h false with
  | .ok v => v.parens
  | .error _ => false

/-- The verdict at the path to a spot asks for parentheses. -/
def needs (h : Heap) (p : Path) (spot : List Side) : Bool := asks h (spotPath h p spot)

variable {h : Heap} {p : Path} {n c : NodeId}

theorem Stands.exists_decide (hs : Stands h p (.node n)) : ∃ v, p.decide h false = .ok v := by
  have ht : Trail p.grammar h p.stack := hs.standard ▸ hs.trail
  refine ht.exists_decide hs.flat (fun m hm => ?_) false
  obtain ⟨rest, hp⟩ := hs.tip
  rw [hp] at hm
  cases hm
  exact hs.acyclic

theorem Stands.enclose_eq (hs : Stands h p (.node n)) (e : OpTree) :
    enclose h p e.flat = .ok (OpTree.enclosed (asks h p) e).flat := by
  obtain ⟨v, hv⟩ := hs.exists_decide
  rw [enclose, asks, hv]
  cases hp : v.parens <;> simp [OpTree.enclosed, OpTree.flat, hp]

/-- Below an operator stand its operands. -/
theorem Stands.operand {op : String} {l r : OpTree} (hs : Stands h p (.node n))
    (ht : h.Holds (.node n) (OpTree.binary op l r).expr) (side : Side) :
    ∃ c, Child h (p.down h (.str side.field)) n c (.str side.field) (OpTree.binary op l r).expr
      (side.operand l r).expr := by
  obtain ⟨m, hm, -, -, hleft, hright⟩ := id ht
  cases hm.value
  have hside : h.Holds (h.get n side.field) (side.operand l r).expr := by
    cases side with
    | left => exact hleft
    | right => exact hright
  obtain ⟨c, -, hc⟩ := hs.field ht side.isField hside
  exact ⟨c, hc⟩

/-- A tree is printed with parentheses just at the spots where the verdicts ask for them. -/
theorem print_eq_mark {t : OpTree} : ∀ {p : Path} {n : NodeId}, Stands h p (.node n) → h.Holds (.node n) t.expr →
    print h p t.expr = .ok (t.mark (needs h p)).flat := by
  induction t with
  | identifier s => exact fun hs _ => hs.enclose_eq (.identifier s)
  | binary op l r hl hr =>
    intro p n hs ht
    obtain ⟨c, hc⟩ := hs.operand ht .left
    obtain ⟨c', hc'⟩ := hs.operand ht .right
    have hleft : print h (p.down h (.str "left")) l.expr = _ := hl hc.stands hc.holds
    have hright : print h (p.down h (.str "right")) r.expr = _ := hr hc'.stands hc'.holds
    rw [OpTree.expr, print, hleft, hright]
    exact hs.enclose_eq
      (.binary op (l.mark (needs h (p.down h (.str "left")))) (r.mark (needs h (p.down h (.str "right")))))
  | paren e => exact fun _ ht => ht.elim

/-! ## The verdict on an operator under another -/

/-- An operator that gets parentheses under another, and does not clash with it, is looser, or as loose on a side to which
the other does not associate. -/
theorem of_binaryInBinary_true {s : Site} {j k : Nat} (hs : s.binaryInBinary = .ok true)
    (hclash : Operator.clash s.parentOperator s.operator = false) (hj : Operator.tier? s.parentOperator = some j)
    (hk : Operator.tier? s.operator = some k) :
    k < j ∨ j = k ∧ (s.isUnder "right" = true ∨ s.parentOperator = "**" ∧ s.isUnder "left" = true) := by
  unfold Site.binaryInBinary at hs
  rw [if_neg (by simp [hclash]), hj, hk] at hs
  dsimp only at hs
  split at hs
  · exact .inl ‹_›
  · split at hs
    · rename_i hright
      simp only [Bool.and_eq_true, decide_eq_true_eq] at hright
      exact .inr ⟨hright.1, .inl hright.2⟩
    · split at hs
      · rename_i hleft
        simp only [Bool.and_eq_true, decide_eq_true_eq] at hleft
        exact .inr ⟨hleft.1.1, .inr ⟨hleft.1.2, hleft.2⟩⟩
      · cases hs

/-- The pairs that the tier grammar can do without. -/
def Idle (side : Side) (op op' : String) : Prop :=
  side = .right ∧ op = "**" ∧ op' = "**" ∨ Operator.clash op op' = true

section Child

variable (side : Side) {op op' : String} {l r l' r' : Expr} {j k : Nat}
  (hc : Child h p n c (.str side.field) (.binary op l r) (.binary op' l' r')) (hj : Operator.tier? op = some j)
  (hk : Operator.tier? op' = some k)
include hc hj hk

/-- Without parentheses, an operator is tight enough for its place. -/
theorem Child.least_le (ha : asks h p = false) : side.least j ≤ k := by
  obtain ⟨v, hv⟩ := hc.exists_decide
  rw [asks, hv] at ha
  obtain ⟨k', hk', -, hjk, heq⟩ := tiers_of_bare hc hv ha hj
  cases hk.symm.trans hk'
  have htop : j = topTier → op = "**" := fun hj' => tier_top (hj' ▸ hj)
  cases side with
  | left =>
    show leftLeast j ≤ k
    unfold leftLeast
    split
    · rename_i hj'
      have : j ≠ k := fun hjk' => (heq hjk').2 (htop hj') rfl
      omega
    · exact hjk
  | right =>
    have : j ≠ k := fun hjk' => (heq hjk').1 rfl
    show rightLeast j ≤ k
    unfold rightLeast
    split <;> omega

/-- With parentheses, an operator is too loose for its place, apart from the idle pairs. -/
theorem Child.lt_least (ha : asks h p = true) (hidle : ¬ Idle side op op') : k < side.least j := by
  obtain ⟨hpower, hclash⟩ := not_or.1 hidle
  obtain ⟨v, hv⟩ := hc.exists_decide
  rw [asks, hv] at ha
  obtain ⟨m, hm, hop, -⟩ := id hc.around
  obtain ⟨m', hm', hop', -⟩ := id hc.holds
  cases hm.value
  cases hm'.value
  have hpo : (⟨h, c, n, .str side.field⟩ : Site).parentOperator = op := textAt_eq hop
  have ho : (⟨h, c, n, .str side.field⟩ : Site).operator = op' := textAt_eq hop'
  have hrule := (hc.nested.binaryInBinary_eq (isBinary_binaryKind op) (isBinary_binaryKind op') hv).trans (congrArg _ ha)
  have hcases := of_binaryInBinary_true hrule (by rw [hpo, ho, Bool.eq_false_iff.2 hclash]) (hpo.symm ▸ hj) (ho.symm ▸ hk)
  rw [hpo] at hcases
  rcases hcases with hlt | ⟨rfl, hside⟩
  · exact Nat.lt_of_lt_of_le hlt (side.le_least j)
  · cases side with
    | left =>
      have hop : op = "**" := by simpa [Site.isUnder, Side.field] using hside
      subst hop
      cases hj.symm.trans (show Operator.tier? "**" = some topTier by decide)
      show topTier < leftLeast topTier
      decide
    | right =>
      have htop : j ≠ topTier := fun h' => hpower ⟨rfl, tier_top (h' ▸ hj), tier_top (h' ▸ hk)⟩
      show j < rightLeast j
      rw [rightLeast, if_neg htop]
      exact Nat.lt_succ_self j

end Child

/-! ## The whole tree is read back -/

namespace OpTree

theorem IsPhrase.enclosed {e : OpTree} {b : Bool} {k : Nat} (h0 : e.IsPhrase 0) (hk : b = false → e.IsPhrase k) :
    (OpTree.enclosed b e).IsPhrase k := by
  cases b with
  | false => exact hk rfl
  | true => exact .paren k h0

theorem IsPhrase.of_enclosed {e : OpTree} {b : Bool} {k : Nat} (h : (OpTree.enclosed b e).IsPhrase k) :
    ∃ k, e.IsPhrase k := by
  cases b with
  | false => exact ⟨k, h⟩
  | true => exact ⟨0, TierPhrase.of_paren h⟩

theorem bare_of_holds {t : OpTree} : ∀ {v : Value}, h.Holds v t.expr → t.bare = t := by
  induction t with
  | identifier s => exact fun _ => rfl
  | binary op l r hl hr =>
    rintro v ⟨m, -, -, -, hleft, hright⟩
    rw [bare, hl hleft, hr hright]
  | paren e => exact fun ht => ht.elim

theorem tiered_of_holds {t : OpTree} : ∀ {v : Value}, h.Holds v t.expr → t.Tiered := by
  induction t with
  | identifier s => exact fun _ => trivial
  | binary op l r hl hr =>
    rintro v ⟨m, -, -, hop, hleft, hright⟩
    exact ⟨hop, hl hleft, hr hright⟩
  | paren e => exact fun ht => ht.elim

end OpTree

/-- The printed tree is a phrase of every tier that its operator reaches, and of all tiers in parentheses. -/
theorem isPhrase_mark {t : OpTree} : ∀ {p : Path} {n : NodeId} {k : Nat}, Stands h p (.node n) →
    h.Holds (.node n) t.expr →
    (∀ op l r j, t = .binary op l r → Operator.tier? op = some j → asks h p = false → k ≤ j) →
    (t.mark (needs h p)).IsPhrase k := by
  induction t with
  | identifier s => exact fun _ _ _ => .enclosed (.identifier 0 s) fun _ => .identifier _ s
  | binary op l r hl hr =>
    intro p n k hs ht hroot
    obtain ⟨-, -, -, htier, -⟩ := id ht
    obtain ⟨j, hj⟩ := Option.isSome_iff_exists.1 htier
    obtain ⟨c, hc⟩ := hs.operand ht .left
    obtain ⟨c', hc'⟩ := hs.operand ht .right
    have hl' : (l.mark (needs h (p.down h (.str "left")))).IsPhrase (leftLeast j) := by
      refine hl hc.stands hc.holds ?_
      rintro op' l' r' i rfl hi ha
      exact hc.least_le .left hj hi ha
    have hr' : (r.mark (needs h (p.down h (.str "right")))).IsPhrase (rightLeast j) := by
      refine hr hc'.stands hc'.holds ?_
      rintro op' l' r' i rfl hi ha
      exact hc'.least_le .right hj hi ha
    exact .enclosed (.binary hj (Nat.zero_le j) hl' hr') fun ha => .binary hj (hroot op l r j rfl hj ha) hl' hr'
  | paren e => exact fun _ ht _ => ht.elim

/-! ## A tree without one of its pairs -/

/-- In a phrase, an operator without parentheses under another is tight enough for its place, at every spot. -/
theorem OpTree.IsPhrase.least_le {side : Side} {op op' : String} {l r l' r' : OpTree} {i j : Nat}
    (hi : Operator.tier? op = some i) (hj : Operator.tier? op' = some j) {spot : List Side} :
    ∀ {t : OpTree} {parens : List Side → Bool} {k : Nat}, (t.mark parens).IsPhrase k →
      t.part? spot = some (.binary op l r) → t.part? (spot ++ [side]) = some (.binary op' l' r') →
      parens (spot ++ [side]) = false → side.least i ≤ j := by
  induction spot with
  | nil =>
    intro t parens k ht hpart hchild hparens
    rw [part?_nil] at hpart
    cases hpart
    obtain ⟨k', hk'⟩ := IsPhrase.of_enclosed ht
    obtain ⟨i', hi', -, hl, hr⟩ := TierPhrase.of_binary hk'
    cases hi.symm.trans hi'
    have hend : ∀ {e : OpTree} {f : List Side → Bool}, e.part? [] = some (.binary op' l' r') → f [] = false →
        (e.mark f).IsPhrase (side.least i) → side.least i ≤ j := by
      intro e f he hf hphrase
      rw [part?_nil] at he
      cases he
      rw [mark, hf] at hphrase
      obtain ⟨j', hj', hle, -⟩ := TierPhrase.of_binary hphrase
      cases hj.symm.trans hj'
      exact hle
    cases side with
    | left => exact hend hchild hparens hl
    | right => exact hend hchild hparens hr
  | cons s spot ih =>
    intro t parens k ht hpart hchild hparens
    cases t with
    | identifier name => simp [part?] at hpart
    | paren e => simp [part?] at hpart
    | binary op₀ l₀ r₀ =>
      obtain ⟨k', hk'⟩ := IsPhrase.of_enclosed ht
      obtain ⟨i', -, -, hl, hr⟩ := TierPhrase.of_binary hk'
      cases s with
      | left => exact ih hl hpart hchild hparens
      | right => exact ih hr hpart hchild hparens

theorem OpTree.part?_append (t : OpTree) (spot rest : List Side) :
    t.part? (spot ++ rest) = (t.part? spot).bind fun e => e.part? rest := by
  induction spot generalizing t with
  | nil => rw [List.nil_append, part?_nil, Option.bind_some]
  | cons side spot ih =>
    cases t with
    | identifier s => simp [part?]
    | paren e => simp [part?]
    | binary op l r => rw [List.cons_append, part?_cons, part?_cons, ih]

/-- The path to a spot stands at the part there. -/
theorem Stands.spot {spot : List Side} : ∀ {t u : OpTree} {p : Path} {n : NodeId}, Stands h p (.node n) →
    h.Holds (.node n) t.expr → t.part? spot = some u →
    ∃ m, Stands h (spotPath h p spot) (.node m) ∧ h.Holds (.node m) u.expr := by
  induction spot with
  | nil =>
    intro t u p n hs ht hu
    rw [OpTree.part?_nil] at hu
    cases hu
    exact ⟨n, hs, ht⟩
  | cons side spot ih =>
    intro t u p n hs ht hu
    cases t with
    | identifier s => simp [OpTree.part?] at hu
    | paren e => simp [OpTree.part?] at hu
    | binary op l r =>
      obtain ⟨c, hc⟩ := hs.operand ht side
      rw [OpTree.part?_cons] at hu
      exact ih hc.stands hc.holds hu

theorem spotPath_append (spot rest : List Side) : spotPath h p (spot ++ rest) = spotPath h (spotPath h p spot) rest :=
  List.foldl_append

theorem needs_append (spot : List Side) : (fun rest => needs h p (spot ++ rest)) = needs h (spotPath h p spot) := by
  funext rest
  rw [needs, spotPath_append, needs]

/-- An operator of the tree and one under it, as nodes at the paths to them. -/
theorem Stands.child {t : OpTree} {spot : List Side} {side : Side} {op op' : String} {l r l' r' : OpTree}
    (hs : Stands h p (.node n)) (ht : h.Holds (.node n) t.expr) (hpart : t.part? spot = some (.binary op l r))
    (hchild : t.part? (spot ++ [side]) = some (.binary op' l' r')) :
    ∃ m c, Child h (spotPath h p (spot ++ [side])) m c (.str side.field) (OpTree.binary op l r).expr
      (OpTree.binary op' l' r').expr := by
  obtain ⟨m, hm, hholds⟩ := hs.spot ht hpart
  obtain ⟨c, hc⟩ := hm.operand hholds side
  rw [OpTree.part?_append, hpart, Option.bind_some, OpTree.part?_cons, OpTree.part?_nil] at hchild
  rw [Option.some.inj hchild] at hc
  rw [spotPath_append]
  exact ⟨m, c, hc⟩

/-! ## Readings -/

/-- The tree is what the tier grammar reads from the tokens, and nothing else can be read from them. -/
def OneReading (ts : List Terminal) (e : OpTree) : Prop := TierPhrase 0 ts e ∧ ∀ e', TierPhrase 0 ts e' → e' = e

theorem TierPhrase.oneReading {ts : List Terminal} {e : OpTree} (h : TierPhrase 0 ts e) : OneReading ts e :=
  ⟨h, fun _ h' => h'.unique h⟩

/-- **No pair is idle.** A tree of operators is printed so that the tier grammar reads it back, with parentheses where the
verdicts ask for them. Without the pair around an operator under another, unless it is one of those left aside, the tokens
around and between stay and are read as another tree. -/
theorem parens_needed (h : Heap) (root : NodeId) (t : OpTree) (ht : h.Holds (.node root) t.expr)
    (ha : h.Acyclic (.node root)) :
    print h (Path.new (.node root)) t.expr = .ok (t.mark (needs h (Path.new (.node root)))).flat ∧
      OneReading (t.mark (needs h (Path.new (.node root)))).flat (t.mark (needs h (Path.new (.node root)))) ∧
      (t.mark (needs h (Path.new (.node root)))).bare = t ∧
      ∀ spot side op l r op' l' r', t.part? spot = some (.binary op l r) →
        t.part? (spot ++ [side]) = some (.binary op' l' r') →
        needs h (Path.new (.node root)) (spot ++ [side]) = true → ¬ Idle side op op' →
        ∃ before inside after e,
          (t.mark (needs h (Path.new (.node root)))).flat = before ++ .lparen :: inside ++ .rparen :: after ∧
          print h (spotPath h (Path.new (.node root)) (spot ++ [side])) (OpTree.binary op' l' r').expr =
            .ok (.lparen :: inside ++ [.rparen]) ∧
          (t.mark (sparing (needs h (Path.new (.node root))) (spot ++ [side]))).flat = before ++ inside ++ after ∧
          OneReading (before ++ inside ++ after) e ∧ e.bare ≠ t := by
  have hs := stands_new (holds_isPart ht) ha
  refine ⟨print_eq_mark hs ht, (isPhrase_mark hs ht fun _ _ _ j _ _ _ => Nat.zero_le j).oneReading,
    (OpTree.bare_mark _ t).trans (OpTree.bare_of_holds ht), ?_⟩
  intro spot side op l r op' l' r' hpart hchild hneeds hidle
  obtain ⟨m, c, hc⟩ := hs.child ht hpart hchild
  obtain ⟨before, inside, after, hall, hown, hwithout⟩ := OpTree.flat_sparing t _ hchild hneeds
  obtain ⟨e, he⟩ := OpTree.exists_phrase
    (OpTree.tiered_mark (sparing (needs h (Path.new (.node root))) (spot ++ [side])) (OpTree.tiered_of_holds ht))
  refine ⟨before, inside, after, e, hall, ?_, hwithout, hwithout ▸ he.oneReading, ?_⟩
  · rw [print_eq_mark hc.stands hc.holds, ← hown, needs_append]
  · intro hbare
    -- With the old operators, the reading is the old tree without the pair, whose operator is too loose for its place.
    have hsame := OpTree.flat_injective he.flat_eq
      (hbare.trans ((OpTree.bare_mark _ t).trans (OpTree.bare_of_holds ht)).symm)
    obtain ⟨-, -, -, htier, -⟩ := id hc.around
    obtain ⟨-, -, -, htier', -⟩ := id hc.holds
    obtain ⟨i, hi⟩ := Option.isSome_iff_exists.1 htier
    obtain ⟨j, hj⟩ := Option.isSome_iff_exists.1 htier'
    have hle := OpTree.IsPhrase.least_le hi hj (hsame ▸ he.isPhrase) hpart hchild sparing_self
    have hlt := hc.lt_least side hi hj hneeds hidle
    omega

/-- The operators of `a - (b + c) * d`. -/
def scaledSum : OpTree :=
  .binary "-" (.identifier "a") (.binary "*" (.binary "+" (.identifier "b") (.identifier "c")) (.identifier "d"))

/-- The nodes of `a - (b + c) * d`, the last being the whole. -/
def scaledSumNodes : Heap where
  nodes := #[
    { tag := "Identifier", fields := .ofEntries [("name", .str "a")] },
    { tag := "Identifier", fields := .ofEntries [("name", .str "b")] },
    { tag := "Identifier", fields := .ofEntries [("name", .str "c")] },
    { tag := "Identifier", fields := .ofEntries [("name", .str "d")] },
    { tag := "BinaryExpression"
      fields := .ofEntries [("operator", .str "+"), ("left", .node ⟨1⟩), ("right", .node ⟨2⟩)] },
    { tag := "BinaryExpression"
      fields := .ofEntries [("operator", .str "*"), ("left", .node ⟨4⟩), ("right", .node ⟨3⟩)] },
    { tag := "BinaryExpression"
      fields := .ofEntries [("operator", .str "-"), ("left", .node ⟨0⟩), ("right", .node ⟨5⟩)] }]

theorem parens_needed_scaledSum :
    needs scaledSumNodes (Path.new (.node ⟨6⟩)) [.right, .left] = true ∧ ¬ Idle .left "*" "+" ∧
      ∃ before inside after e,
        (scaledSum.mark (needs scaledSumNodes (Path.new (.node ⟨6⟩)))).flat =
          before ++ .lparen :: inside ++ .rparen :: after ∧
        OneReading (before ++ inside ++ after) e ∧ e.bare ≠ scaledSum := by
  have hneeds : needs scaledSumNodes (Path.new (.node ⟨6⟩)) [.right, .left] = true := by decide
  have hidle : ¬ Idle .left "*" "+" := by
    unfold Idle
    decide
  have hholds : scaledSumNodes.Holds (.node ⟨6⟩) scaledSum.expr := by
    refine ⟨⟨6⟩, ⟨rfl, by decide, by decide⟩, by decide, by decide, ?_, ?_⟩
    · exact ⟨⟨0⟩, ⟨rfl, by decide, by decide⟩, by decide⟩
    · refine ⟨⟨5⟩, ⟨rfl, by decide, by decide⟩, by decide, by decide, ?_, ?_⟩
      · refine ⟨⟨4⟩, ⟨rfl, by decide, by decide⟩, by decide, by decide, ?_, ?_⟩
        · exact ⟨⟨1⟩, ⟨rfl, by decide, by decide⟩, by decide⟩
        · exact ⟨⟨2⟩, ⟨rfl, by decide, by decide⟩, by decide⟩
      · exact ⟨⟨3⟩, ⟨rfl, by decide, by decide⟩, by decide⟩
  have hacyclic : scaledSumNodes.Acyclic (.node ⟨6⟩) := Heap.acyclic_of_measure Heap.nodePlace (by decide) (by decide) _
  obtain ⟨-, -, -, hall⟩ := parens_needed scaledSumNodes ⟨6⟩ scaledSum hholds hacyclic
  obtain ⟨before, inside, after, e, hflat, -, -, hread, hother⟩ := hall [.right] .left _ _ _ _ _ _ rfl rfl hneeds hidle
  exact ⟨hneeds, hidle, before, inside, after, e, hflat, hread, hother⟩

end Bracketing.Printing
