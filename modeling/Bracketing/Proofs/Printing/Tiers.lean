import Bracketing.Proofs.Printing.Slot

/-!
# The tier grammar

Trees of identifiers and binary operators in which parentheses are written out, and the grammar that reads them back
from their tokens: operators of a lower tier are looser, those of one tier group to the left, and `**` groups to the
right. Unlike the grammar of expressions it lets `??` stand beside `||` and `&&`.

* **One reading** (`TierPhrase.unique`): where two trees with the same tokens split at different operators, each of the
  two operators would have to be the tighter one.
* **A reading** (`OpTree.exists_phrase`): the tokens of every tree are a phrase, although it may be one of another tree.
* **Parentheses are seen** (`OpTree.flat_injective`): trees that have the same tokens and differ in parentheses only are
  the same.
-/

namespace Bracketing.Printing

/-! ## Trees and their tokens -/

/-- A tree of identifiers and binary operators with parentheses around some of its parts. -/
inductive OpTree where
  | identifier (name : String)
  | binary (op : String) (left right : OpTree)
  | paren (inner : OpTree)
  deriving DecidableEq

namespace OpTree

/-- The tokens of a tree. -/
def flat : OpTree → List Terminal
  | identifier s => [.identifier s]
  | binary op l r => l.flat ++ .operator op :: r.flat
  | paren e => .lparen :: e.flat ++ [.rparen]

/-- The tree without its parentheses. -/
def bare : OpTree → OpTree
  | identifier s => .identifier s
  | binary op l r => .binary op l.bare r.bare
  | paren e => e.bare

/-- Every operator of the tree has a tier. -/
def Tiered : OpTree → Prop
  | identifier _ => True
  | binary op l r => (Operator.tier? op).isSome ∧ l.Tiered ∧ r.Tiered
  | paren e => e.Tiered

/-- The number of operators. -/
def size : OpTree → Nat
  | identifier _ => 0
  | binary _ l r => l.size + r.size + 1
  | paren e => e.size

theorem size_bare (e : OpTree) : e.bare.size = e.size := by
  induction e with
  | identifier s => rfl
  | binary op l r hl hr => simp only [bare, size, hl, hr]
  | paren e ih => exact ih

end OpTree

/-- The least tier of the left operand of an operator of a tier. -/
def leftLeast (k : Nat) : Nat := if k = topTier then k + 1 else k

/-- The least tier of the right operand of an operator of a tier. -/
def rightLeast (k : Nat) : Nat := if k = topTier then k else k + 1

/-- **The tier grammar**: the tokens spell the tree, and its operators outside of parentheses are of the tier or of those
above it. -/
inductive TierPhrase : Nat → List Terminal → OpTree → Prop
  | identifier (k : Nat) (s : String) : TierPhrase k [.identifier s] (.identifier s)
  | paren {ts : List Terminal} {e : OpTree} (k : Nat) : TierPhrase 0 ts e →
      TierPhrase k (.lparen :: ts ++ [.rparen]) (.paren e)
  | binary {j k : Nat} {op : String} {ls rs : List Terminal} {l r : OpTree} : Operator.tier? op = some k → j ≤ k →
      TierPhrase (leftLeast k) ls l → TierPhrase (rightLeast k) rs r →
      TierPhrase j (ls ++ .operator op :: rs) (.binary op l r)

theorem TierPhrase.flat_eq {k : Nat} {ts : List Terminal} {e : OpTree} (h : TierPhrase k ts e) : e.flat = ts := by
  induction h with
  | identifier => rfl
  | paren _ _ ih => rw [OpTree.flat, ih]
  | binary _ _ _ _ hl hr => rw [OpTree.flat, hl, hr]

/-- The tree is a phrase of the tier, with its own tokens. -/
def OpTree.IsPhrase (e : OpTree) (k : Nat) : Prop := TierPhrase k e.flat e

theorem TierPhrase.isPhrase {k : Nat} {ts : List Terminal} {e : OpTree} (h : TierPhrase k ts e) : e.IsPhrase k := by
  rw [OpTree.IsPhrase, h.flat_eq]
  exact h

theorem TierPhrase.of_paren {k : Nat} {ts : List Terminal} {e : OpTree} (h : TierPhrase k ts (.paren e)) :
    e.IsPhrase 0 := by
  cases h with
  | paren _ h => exact h.isPhrase

theorem TierPhrase.of_binary {k : Nat} {ts : List Terminal} {op : String} {l r : OpTree}
    (h : TierPhrase k ts (.binary op l r)) :
    ∃ j, Operator.tier? op = some j ∧ k ≤ j ∧ l.IsPhrase (leftLeast j) ∧ r.IsPhrase (rightLeast j) := by
  cases h with
  | binary hop hkj hl hr => exact ⟨_, hop, hkj, hl.isPhrase, hr.isPhrase⟩

/-! ## Parentheses that are open -/

/-- The number of parentheses opened less those closed. -/
def rise (ts : List Terminal) : Int := ts.count .lparen - ts.count .rparen

theorem rise_append (us vs : List Terminal) : rise (us ++ vs) = rise us + rise vs := by
  simp only [rise, List.count_append]
  omega

theorem rise_operator (op : String) (ts : List Terminal) : rise (.operator op :: ts) = rise ts := by
  simp [rise]

theorem rise_lparen (ts : List Terminal) : rise (.lparen :: ts) = rise ts + 1 := by
  simp only [rise, List.count_cons_self, List.count_cons_of_ne (show Terminal.lparen ≠ .rparen by simp)]
  omega

/-- Two lists that agree, split at an item each: at the same place, or one after the other. -/
theorem append_cons_cases {α : Type} {as bs cs ds : List α} {x y : α} (h : as ++ x :: bs = cs ++ y :: ds) :
    (as = cs ∧ x = y ∧ bs = ds) ∨ (∃ ms, cs = as ++ x :: ms ∧ bs = ms ++ y :: ds) ∨
      ∃ ms, as = cs ++ y :: ms ∧ ds = ms ++ x :: bs := by
  rcases List.append_eq_append_iff.1 h with ⟨ms, hcs, hbs⟩ | ⟨ms, has, hds⟩
  · cases ms with
    | nil =>
      cases hbs
      exact .inl ⟨by simpa using hcs.symm, rfl, rfl⟩
    | cons m ms =>
      cases hbs
      exact .inr (.inl ⟨ms, hcs, rfl⟩)
  · cases ms with
    | nil =>
      cases hds
      exact .inl ⟨by simpa using has, rfl, rfl⟩
    | cons m ms =>
      cases hds
      exact .inr (.inr ⟨ms, has, rfl⟩)

namespace OpTree

theorem rise_flat (e : OpTree) : rise e.flat = 0 := by
  induction e with
  | identifier s => rfl
  | binary op l r hl hr => rw [flat, rise_append, rise_operator, hl, hr]; rfl
  | paren e ih => rw [flat, List.cons_append, rise_lparen, rise_append, ih]; rfl

/-- Within parentheses one is open, if none of those inside is closed too early. -/
theorem rise_within {e : OpTree} (he : ∀ us vs, e.flat = us ++ vs → 0 ≤ rise us) {us vs : List Terminal}
    (h : (paren e).flat = us ++ vs) (hu : us ≠ []) (hv : vs ≠ []) : 0 < rise us := by
  obtain ⟨u, us, rfl⟩ := List.exists_cons_of_ne_nil hu
  rcases List.eq_nil_or_concat vs with rfl | ⟨vs, v, rfl⟩
  · exact absurd rfl hv
  · rw [flat, List.cons_append, List.cons_append, List.cons.injEq, List.concat_eq_append, ← List.append_assoc] at h
    obtain ⟨rfl, h⟩ := h
    have := he us vs (List.append_inj' h rfl).1
    rw [rise_lparen]
    omega

/-- Nowhere in a tree are more parentheses closed than opened. -/
theorem rise_nonneg (e : OpTree) : ∀ us vs, e.flat = us ++ vs → 0 ≤ rise us := by
  induction e with
  | identifier s =>
    intro us vs h
    rcases us with _ | ⟨u, us⟩
    · exact Int.le_refl 0
    · simp only [flat, List.cons_append, List.cons.injEq, List.nil_eq, List.append_eq_nil_iff] at h
      obtain ⟨rfl, rfl, -⟩ := h
      exact Int.le_refl 0
  | binary op l r hl hr =>
    intro us vs h
    rcases List.append_eq_append_iff.1 h with ⟨ms, rfl, hms⟩ | ⟨ms, hms, -⟩
    · cases ms with
      | nil => simp [l.rise_flat]
      | cons m ms =>
        obtain ⟨rfl, hrest⟩ := List.cons.inj hms
        rw [rise_append, l.rise_flat, rise_operator]
        simpa using hr ms vs hrest
    · exact hl us ms hms
  | paren e ih =>
    intro us vs h
    by_cases hu : us = []
    · subst hu
      exact Int.le_refl 0
    · by_cases hv : vs = []
      · subst hv
        rw [List.append_nil] at h
        rw [← h, rise_flat]
      · exact Int.le_of_lt (rise_within ih h hu hv)

/-- An operator outside of parentheses does not split a tree in parentheses. -/
theorem paren_ne_split {e : OpTree} {us vs : List Terminal} {op : String} (hu : rise us = 0) :
    (paren e).flat ≠ us ++ .operator op :: vs := by
  intro h
  have hne : us ≠ [] := by
    rintro rfl
    cases h
  have := rise_within e.rise_nonneg h hne (by simp)
  omega

theorem identifier_ne_split {s op : String} {us vs : List Terminal} :
    (identifier s).flat ≠ us ++ .operator op :: vs := by
  intro h
  rcases us with _ | ⟨u, us⟩ <;> simp [flat] at h

theorem identifier_ne_paren {s : String} {e : OpTree} : (identifier s).flat ≠ (paren e).flat := by
  simp [flat]

end OpTree

/-! ## One reading -/

/-- The operators of a phrase outside of parentheses are of its tier or of those above it. -/
theorem TierPhrase.tier_of_split {k : Nat} {ts : List Terminal} {e : OpTree} (h : TierPhrase k ts e) :
    ∀ {us vs : List Terminal} {op : String}, ts = us ++ .operator op :: vs → rise us = 0 →
      ∃ j, Operator.tier? op = some j ∧ k ≤ j := by
  induction h with
  | identifier k s => exact fun hsplit _ => absurd hsplit OpTree.identifier_ne_split
  | paren k h _ =>
    intro us vs op hsplit hu
    rw [← h.flat_eq] at hsplit
    exact absurd hsplit (OpTree.paren_ne_split hu)
  | @binary j k op' ls rs l r hop hjk hl hr ihl ihr =>
    intro us vs op hsplit hu
    rcases append_cons_cases hsplit with ⟨-, heq, -⟩ | ⟨ms, rfl, hms⟩ | ⟨ms, hms, -⟩
    · cases heq
      exact ⟨k, hop, hjk⟩
    · rw [rise_append, rise_operator, ← hl.flat_eq, l.rise_flat, Int.zero_add] at hu
      obtain ⟨i, hi, hki⟩ := ihr hms hu
      refine ⟨i, hi, ?_⟩
      unfold rightLeast at hki
      split at hki <;> omega
    · obtain ⟨i, hi, hki⟩ := ihl hms hu
      refine ⟨i, hi, ?_⟩
      unfold leftLeast at hki
      split at hki <;> omega

/-- Neither of two operators can be right of the other in one reading and left of it in another. -/
theorem least_cross {j k : Nat} (hr : rightLeast j ≤ k) (hl : leftLeast k ≤ j) : False := by
  unfold rightLeast at hr
  unfold leftLeast at hl
  split at hr <;> split at hl <;> omega

/-- Two readings that split at operators split at the same one. -/
theorem TierPhrase.split_eq {j k : Nat} {op op' : String} {ls rs ls' rs' : List Terminal} {l r l' r' : OpTree}
    (hop : Operator.tier? op = some j) (hr : TierPhrase (rightLeast j) rs r) (hl : TierPhrase (leftLeast j) ls l)
    (hop' : Operator.tier? op' = some k) (hr' : TierPhrase (rightLeast k) rs' r')
    (hl' : TierPhrase (leftLeast k) ls' l') (h : ls ++ .operator op :: rs = ls' ++ .operator op' :: rs') :
    ls = ls' ∧ op = op' ∧ rs = rs' := by
  -- the operator of the one reading is in an operand of the other, and so tighter than the other's
  have hcross : ∀ {j k : Nat} {op op' : String} {ls rs ls' rs' ms : List Terminal} {l r l' : OpTree},
      Operator.tier? op = some j → Operator.tier? op' = some k → TierPhrase (leftLeast j) ls l →
      TierPhrase (rightLeast j) rs r → TierPhrase (leftLeast k) ls' l' → ls' = ls ++ .operator op :: ms →
      rs = ms ++ .operator op' :: rs' → False := by
    intro j k op op' ls rs ls' rs' ms l r l' hop hop' hl hr hl' hls' hrs
    have hrise : rise ls = 0 := by rw [← hl.flat_eq, l.rise_flat]
    have hms : rise ms = 0 := by
      have := l'.rise_flat
      rw [hl'.flat_eq, hls', rise_append, rise_operator, hrise] at this
      simpa using this
    obtain ⟨i, hi, hki⟩ := hl'.tier_of_split hls' hrise
    obtain ⟨i', hi', hji'⟩ := hr.tier_of_split hrs hms
    cases hop.symm.trans hi
    cases hop'.symm.trans hi'
    exact least_cross hji' hki
  rcases append_cons_cases h with ⟨h1, h2, h3⟩ | ⟨ms, hls', hrs⟩ | ⟨ms, hls, hrs'⟩
  · exact ⟨h1, by simpa using h2, h3⟩
  · exact (hcross hop hop' hl hr hl' hls' hrs).elim
  · exact (hcross hop' hop hl' hr' hl hls hrs').elim

/-- **A list of tokens has at most one reading.** -/
theorem TierPhrase.unique {k : Nat} {ts : List Terminal} {e : OpTree} (h : TierPhrase k ts e) :
    ∀ {k' : Nat} {e' : OpTree}, TierPhrase k' ts e' → e = e' := by
  induction h with
  | identifier k s =>
    intro k' e' h'
    have hflat := h'.flat_eq
    cases e' with
    | identifier s' => simpa [OpTree.flat] using hflat.symm
    | binary op l r => exact absurd hflat.symm OpTree.identifier_ne_split
    | paren e => exact absurd hflat.symm OpTree.identifier_ne_paren
  | @paren ts e k h ih =>
    intro k' e' h'
    generalize hts : Terminal.lparen :: ts ++ [.rparen] = us at h'
    cases h' with
    | identifier => simp at hts
    | @paren ts' e' _ h' =>
      have : ts = ts' := by simpa using hts
      rw [ih (this ▸ h')]
    | binary _ _ hl _ =>
      rw [← h.flat_eq] at hts
      refine absurd hts (OpTree.paren_ne_split ?_)
      rw [← hl.flat_eq, OpTree.rise_flat]
  | @binary j k op ls rs l r hop hjk hl hr ihl ihr =>
    intro k' e' h'
    generalize hts : ls ++ .operator op :: rs = us at h'
    cases h' with
    | identifier => exact absurd hts.symm OpTree.identifier_ne_split
    | paren _ h' =>
      rw [← h'.flat_eq] at hts
      refine absurd hts.symm (OpTree.paren_ne_split ?_)
      rw [← hl.flat_eq, OpTree.rise_flat]
    | binary hop' _ hl' hr' =>
      obtain ⟨rfl, rfl, rfl⟩ := TierPhrase.split_eq hop hr hl hop' hr' hl' hts
      rw [ihl hl', ihr hr']

/-! ## A reading of every tree -/

/-- One more operator and operand behind a phrase: the operator goes as far down on the right as its tier lets it. -/
theorem TierPhrase.exists_append {k : Nat} {ts : List Terminal} {e : OpTree} (h : TierPhrase k ts e) {op : String}
    {j : Nat} (hop : Operator.tier? op = some j) {us : List Terminal} {x : OpTree} (hx : ∀ k, TierPhrase k us x) :
    k ≤ j → ∃ z, TierPhrase k (ts ++ .operator op :: us) z := by
  induction h with
  | identifier k s => exact fun hkj => ⟨_, .binary hop hkj (.identifier _ s) (hx _)⟩
  | paren k h _ => exact fun hkj => ⟨_, .binary hop hkj (.paren _ h) (hx _)⟩
  | @binary k i op' ls rs l r hop' hki hl hr _ ihr =>
    intro hkj
    by_cases hij : rightLeast i ≤ j
    · obtain ⟨z, hz⟩ := ihr hij
      refine ⟨.binary op' l z, ?_⟩
      rw [List.append_assoc, List.cons_append]
      exact .binary hop' hki hl hz
    · have hji : leftLeast j ≤ i := by
        have := tier_le hop'
        unfold rightLeast at hij
        unfold leftLeast
        split at hij <;> split <;> omega
      exact ⟨_, .binary hop hkj (.binary hop' hji hl hr) (hx _)⟩

/-- The tokens of every tree are a phrase, by themselves and behind any other phrase and an operator. -/
theorem OpTree.exists_phrase_append {e : OpTree} (he : e.Tiered) : (∃ z, TierPhrase 0 e.flat z) ∧
    ∀ {ts : List Terminal} {x : OpTree} {op : String}, TierPhrase 0 ts x → (Operator.tier? op).isSome →
      ∃ z, TierPhrase 0 (ts ++ .operator op :: e.flat) z := by
  induction e with
  | identifier s =>
    refine ⟨⟨_, .identifier 0 s⟩, fun hx hop => ?_⟩
    obtain ⟨j, hj⟩ := Option.isSome_iff_exists.1 hop
    exact hx.exists_append hj (fun k => .identifier k s) (Nat.zero_le j)
  | binary op l r hl hr =>
    obtain ⟨⟨z, hz⟩, hlafter⟩ := hl he.2.1
    refine ⟨(hr he.2.2).2 hz he.1, fun hx hop => ?_⟩
    obtain ⟨y, hy⟩ := hlafter hx hop
    obtain ⟨w, hw⟩ := (hr he.2.2).2 hy he.1
    exact ⟨w, by simpa [flat] using hw⟩
  | paren e ih =>
    obtain ⟨⟨z, hz⟩, -⟩ := ih he
    refine ⟨⟨_, .paren 0 hz⟩, fun hx hop => ?_⟩
    obtain ⟨j, hj⟩ := Option.isSome_iff_exists.1 hop
    exact hx.exists_append hj (fun k => .paren k hz) (Nat.zero_le j)

/-- **The tokens of every tree have a reading.** -/
theorem OpTree.exists_phrase {e : OpTree} (he : e.Tiered) : ∃ z, TierPhrase 0 e.flat z :=
  (exists_phrase_append he).1

/-! ## Trees that differ in parentheses only -/

/-- The token is an operator. -/
def Terminal.isOperator : Terminal → Bool
  | operator _ => true
  | _ => false

namespace OpTree

theorem countP_flat (e : OpTree) : e.flat.countP Terminal.isOperator = e.size := by
  induction e with
  | identifier s => rfl
  | binary op l r hl hr =>
    rw [flat, List.countP_append, List.countP_cons_of_pos rfl, hl, hr, size]
    omega
  | paren e ih => simp [flat, size, ih, Terminal.isOperator]

/-- The same number of operators before an operator: it is the same one. -/
theorem split_of_size {op : String} {l r l' r' : OpTree} (hs : l.size = l'.size)
    (h : l.flat ++ .operator op :: r.flat = l'.flat ++ .operator op :: r'.flat) :
    l.flat = l'.flat ∧ r.flat = r'.flat := by
  have hmore : ∀ {a b : OpTree} {ms : List Terminal}, a.flat = b.flat ++ .operator op :: ms → b.size < a.size := by
    intro a b ms hab
    rw [← countP_flat a, hab, List.countP_append, List.countP_cons_of_pos rfl, countP_flat]
    omega
  rcases append_cons_cases h with ⟨h1, -, h2⟩ | ⟨ms, hl', -⟩ | ⟨ms, hl, -⟩
  · exact ⟨h1, h2⟩
  · exact absurd hs (Nat.ne_of_lt (hmore hl'))
  · exact absurd hs.symm (Nat.ne_of_lt (hmore hl))

/-- **Parentheses are seen in the tokens**: trees that have the same tokens and are the same without their parentheses are
the same. -/
theorem flat_injective {e e' : OpTree} (hflat : e.flat = e'.flat) (hbare : e.bare = e'.bare) : e = e' := by
  induction e generalizing e' with
  | identifier s =>
    cases e' with
    | identifier s' => simpa [flat] using hflat
    | binary op l r => exact absurd hflat identifier_ne_split
    | paren e => exact absurd hflat identifier_ne_paren
  | binary op l r hl hr =>
    cases e' with
    | identifier s => exact absurd hflat.symm identifier_ne_split
    | binary op' l' r' =>
      simp only [bare, binary.injEq] at hbare
      obtain ⟨rfl, hbl, hbr⟩ := hbare
      have hs : l.size = l'.size := by rw [← size_bare l, hbl, size_bare]
      obtain ⟨hfl, hfr⟩ := split_of_size hs hflat
      rw [hl hfl hbl, hr hfr hbr]
    | paren e => exact absurd hflat.symm (paren_ne_split l.rise_flat)
  | paren e ih =>
    cases e' with
    | identifier s => exact absurd hflat.symm identifier_ne_paren
    | binary op l r => exact absurd hflat (paren_ne_split l.rise_flat)
    | paren e' =>
      have hinner : e.flat = e'.flat := by simpa [flat] using hflat
      rw [ih hinner hbare]

end OpTree

end Bracketing.Printing
