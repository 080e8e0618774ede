import Bracketing.Source.Token
import Mathlib.Algebra.Group.Int.Defs
import Mathlib.Data.List.Basic

/-!
# The order of positions

Positions are ordered by line and then by column. A comparison takes the wrapped difference, whose sign tells the order
only if the difference does not wrap: positions that are not too far apart (`Near`) compare as they are ordered. This
holds of `Natural` positions, which have no negative coordinate (`compare_nonneg_iff`, `compare_pos_iff`), and so their
spans contain each other as their ends are ordered (`contains_iff_encloses`).
-/

namespace Bracketing.Source

namespace Position

/-- The first position is on an earlier line, or on the same line in an earlier column. -/
def Before (a b : Position) : Prop := a.line < b.line ∨ a.line = b.line ∧ a.column < b.column

instance (a b : Position) : Decidable (a.Before b) := inferInstanceAs (Decidable (_ ∨ _))

/-- No coordinate is negative. -/
def Natural (p : Position) : Prop := 0 ≤ p.line ∧ 0 ≤ p.column

instance (p : Position) : Decidable p.Natural := inferInstanceAs (Decidable (_ ∧ _))

theorem before_iff {a b : Position} : a.Before b ↔
    a.line.toInt < b.line.toInt ∨ a.line.toInt = b.line.toInt ∧ a.column.toInt < b.column.toInt := by
  simp only [Before, Int64.lt_iff_toInt_lt, Int64.toInt_inj]

/-- What is before a position that is not after another is before the other. -/
theorem Before.trans_le {a b c : Position} (hab : a.Before b) (hbc : ¬ c.Before b) : a.Before c := by
  rw [before_iff] at *
  omega

/-- What is not after a position that is before another is before the other. -/
theorem Before.le_trans {a b c : Position} (hbc : b.Before c) (hab : ¬ b.Before a) : a.Before c := by
  rw [before_iff] at *
  omega

/-- The integer fits a signed word. -/
def FitsWord (x : Int) : Prop := -2 ^ 63 ≤ x ∧ x < 2 ^ 63

instance (x : Int) : Decidable (FitsWord x) := inferInstanceAs (Decidable (_ ∧ _))

/-- The difference that decides about the order of two positions, given by their lines and columns. -/
def decisive (l c l' c' : Int) : Int := if l = l' then c - c' else l - l'

/-- The positions are not further apart than a signed word tells: in their lines, or in their columns if they are on the
same line. -/
def Near (a b : Position) : Prop := FitsWord (decisive a.line.toInt a.column.toInt b.line.toInt b.column.toInt)

instance (a b : Position) : Decidable (a.Near b) := inferInstanceAs (Decidable (FitsWord _))

theorem Natural.near {a b : Position} (ha : a.Natural) (hb : b.Natural) : a.Near b := by
  have hfits : ∀ x y : Int64, 0 ≤ x → 0 ≤ y → FitsWord (x.toInt - y.toInt) := by
    intro x y hx hy
    have hx' := Int64.le_iff_toInt_le.1 hx
    have hy' := Int64.le_iff_toInt_le.1 hy
    have hx'' := Int64.toInt_lt x
    have hy'' := Int64.toInt_lt y
    rw [Int64.toInt_zero] at hx' hy'
    unfold FitsWord
    omega
  unfold Near decisive
  split
  · exact hfits _ _ ha.2 hb.2
  · exact hfits _ _ ha.1 hb.1

section Near

variable {a b : Position} (hab : a.Near b)
include hab

/-- The difference of positions near each other does not wrap. -/
theorem Near.toInt_compare : (a.compare b).toInt =
    if a.line = b.line then a.column.toInt - b.column.toInt else a.line.toInt - b.line.toInt := by
  have hsub : ∀ x y : Int64, FitsWord (x.toInt - y.toInt) → (x - y).toInt = x.toInt - y.toInt := by
    intro x y hxy
    unfold FitsWord at hxy
    rw [Int64.toInt_sub]
    exact Int.bmod_eq_of_le (by omega) (by omega)
  unfold compare
  by_cases hl : a.line = b.line
  · have hfit : FitsWord (a.column.toInt - b.column.toInt) := by simpa [Near, decisive, hl] using hab
    rw [if_neg (by simp [hl]), if_pos hl, hsub _ _ hfit]
  · have hl' : a.line.toInt ≠ b.line.toInt := fun h => hl (Int64.toInt_inj.1 h)
    have hfit : FitsWord (a.line.toInt - b.line.toInt) := by simpa [Near, decisive, hl'] using hab
    have hne : a.line - b.line ≠ 0 := fun h => hl' (by
      have h' := congrArg Int64.toInt h
      rw [hsub _ _ hfit, Int64.toInt_zero] at h'
      omega)
    rw [if_pos hne, if_neg hl, hsub _ _ hfit]

/-- A comparison is positive if the second position is before the first. -/
theorem Near.compare_pos_iff : 0 < a.compare b ↔ b.Before a := by
  rw [Int64.lt_iff_toInt_lt, hab.toInt_compare, before_iff, Int64.toInt_zero]
  split <;> rename_i h <;> rw [← Int64.toInt_inj] at h <;> omega

/-- A comparison is negative if the first position is before the second. -/
theorem Near.compare_neg_iff : a.compare b < 0 ↔ a.Before b := by
  rw [Int64.lt_iff_toInt_lt, hab.toInt_compare, before_iff, Int64.toInt_zero]
  split <;> rename_i h <;> rw [← Int64.toInt_inj] at h <;> omega

theorem Near.compare_nonpos_iff : a.compare b ≤ 0 ↔ ¬ b.Before a := by
  rw [← hab.compare_pos_iff, Int64.le_iff_toInt_le, Int64.lt_iff_toInt_lt]
  omega

end Near

section Compare

variable {a b : Position} (ha : a.Natural) (hb : b.Natural)
include ha hb

/-- A comparison is not negative unless the first position is before the second. -/
theorem compare_nonneg_iff : 0 ≤ a.compare b ↔ ¬ a.Before b := by
  rw [← (ha.near hb).compare_neg_iff, Int64.le_iff_toInt_le, Int64.lt_iff_toInt_lt]
  omega

/-- A comparison is positive if the second position is before the first. -/
theorem compare_pos_iff : 0 < a.compare b ↔ b.Before a := (ha.near hb).compare_pos_iff

theorem compare_nonpos_iff : a.compare b ≤ 0 ↔ ¬ b.Before a := (ha.near hb).compare_nonpos_iff

end Compare

end Position

namespace Span

/-- Both ends are natural. -/
def Natural (s : Span) : Prop := s.start.Natural ∧ s.stop.Natural

instance (s : Span) : Decidable s.Natural := inferInstanceAs (Decidable (_ ∧ _))

/-- The second span starts no earlier than the first and ends no later. -/
def Encloses (s t : Span) : Prop := ¬ t.start.Before s.start ∧ ¬ s.stop.Before t.stop

instance (s t : Span) : Decidable (s.Encloses t) := inferInstanceAs (Decidable (_ ∧ _))

theorem Encloses.trans {s t u : Span} (hst : s.Encloses t) (htu : t.Encloses u) : s.Encloses u := by
  simp only [Encloses, Position.before_iff] at *
  omega

/-- A natural span contains another just if it encloses it. -/
theorem contains_iff_encloses {s t : Span} (hs : s.Natural) (ht : t.Natural) : s.contains t = true ↔ s.Encloses t := by
  simp only [contains, Bool.and_eq_true, decide_eq_true_eq, Position.compare_nonpos_iff hs.1 ht.1,
    Position.compare_nonpos_iff ht.2 hs.2, Encloses]

end Span

/-! ## Tokens around a span -/

namespace Token

/-- The token starts before the span. -/
def startsBefore (s : Span) (t : Token) : Bool := t.span.start.Before s.start

/-- The token ends by the end of the span. -/
def endsBy (s : Span) (t : Token) : Bool := ¬ s.stop.Before t.span.stop

/-- The token lies in the span. -/
def liesIn (s : Span) (t : Token) : Bool := s.Encloses t.span

/-- The token neither starts before the span nor ends by its end. -/
def runsPast (s : Span) (t : Token) : Bool := ¬ t.span.start.Before s.start ∧ s.stop.Before t.span.stop

theorem liesIn_eq (s : Span) (t : Token) : t.liesIn s = (!t.startsBefore s && t.endsBy s) := by
  rw [Bool.eq_iff_iff, liesIn, decide_eq_true_iff, Span.Encloses]
  simp [startsBefore, endsBy]

theorem runsPast_eq (s : Span) (t : Token) : t.runsPast s = (!t.startsBefore s && !t.endsBy s) := by
  simp [runsPast, startsBefore, endsBy]

end Token

end Bracketing.Source
