import Bracketing.Tree.Record
import Mathlib.Data.List.Nodup

/-!
# Setting one entry after another

Every name keeps the place at which it was first set, and has the value that it was last set to.

* **Names** (`map_fst_putEntries`): they are the first occurrences of the names that were set.
* **Values** (`lookup_putEntries`): the value under a name is the one that was set last.
* **Distinct names** (`putEntries_of_nodup`): entries with distinct names stay as they are.
-/

namespace Bracketing.Tree

/-! ## First occurrences -/

section First

variable {α : Type} [BEq α] [LawfulBEq α]

theorem eraseDups_of_nodup {as : List α} (h : as.Nodup) : as.eraseDups = as := by
  induction as with
  | nil => rfl
  | cons a as ih =>
    obtain ⟨ha, has⟩ := List.nodup_cons.1 h
    have hself : as.filter (fun b => !b == a) = as := by
      refine List.filter_eq_self.2 fun b hb => ?_
      simpa using fun hba : b = a => ha (hba ▸ hb)
    rw [List.eraseDups_cons, hself, ih has]

/-- Picking items and keeping first occurrences can be done in either order. -/
theorem filter_eraseDups (p : α → Bool) (as : List α) : as.eraseDups.filter p = (as.filter p).eraseDups := by
  match as with
  | [] => rfl
  | a :: as =>
    have ih := filter_eraseDups p (as.filter fun b => !b == a)
    rw [List.eraseDups_cons]
    by_cases hp : p a = true
    · rw [List.filter_cons_of_pos hp, List.filter_cons_of_pos hp, List.eraseDups_cons, ih, List.filter_filter,
        List.filter_filter]
      simp only [Bool.and_comm]
    · have hself : (as.filter p).filter (fun b => !b == a) = as.filter p := by
        refine List.filter_eq_self.2 fun b hb => ?_
        simpa using fun hba : b = a => hp (hba ▸ (List.mem_filter.1 hb).2)
      rw [List.filter_cons_of_neg hp, List.filter_cons_of_neg hp, ih, ← hself, List.filter_filter, List.filter_filter]
      simp only [Bool.and_comm]
termination_by as.length
decreasing_by exact Nat.lt_succ_of_le (List.length_filter_le _ _)

end First

/-! ## One entry -/

section Entries

variable {α : Type} {es acc : List (String × α)} {k : String} {x : α}

theorem mem_putEntry {e : String × α} (he : e ∈ putEntry k x es) : e = (k, x) ∨ e ∈ es := by
  induction es with
  | nil => exact .inl (List.mem_singleton.1 he)
  | cons a rest ih =>
    unfold putEntry at he
    split at he
    · exact (List.mem_cons.1 he).imp id (List.mem_cons_of_mem a)
    · rcases List.mem_cons.1 he with rfl | he
      · exact .inr List.mem_cons_self
      · exact (ih he).imp id (List.mem_cons_of_mem a)

theorem putEntry_of_new (hk : k ∉ es.map Prod.fst) : putEntry k x es = es ++ [(k, x)] := by
  induction es with
  | nil => rfl
  | cons e rest ih =>
    simp only [List.map_cons, List.mem_cons, not_or] at hk
    rw [putEntry, if_neg (Ne.symm hk.1), ih hk.2, List.cons_append]

/-! ## Many entries -/

theorem map_fst_putEntries (es acc : List (String × α)) : (putEntries acc es).map Prod.fst =
    acc.map Prod.fst ++ ((es.map Prod.fst).filter (· ∉ acc.map Prod.fst)).eraseDups := by
  induction es generalizing acc with
  | nil => simp [putEntries]
  | cons e rest ih =>
    refine (ih (putEntry e.1 e.2 acc)).trans ?_
    rw [map_fst_putEntry]
    by_cases hk : e.1 ∈ acc.map Prod.fst
    · rw [if_pos hk, List.map_cons, List.filter_cons_of_neg (by simpa using hk)]
    · rw [if_neg hk, List.map_cons, List.filter_cons_of_pos (by simpa using hk), List.eraseDups_cons, List.filter_filter,
        List.append_assoc, List.singleton_append]
      congr 3
      refine List.filter_congr fun l _ => ?_
      rw [Bool.eq_iff_iff]
      simp only [Bool.and_eq_true, Bool.not_eq_true', decide_eq_true_iff, List.mem_append, List.mem_singleton, not_or,
        beq_eq_false_iff_ne, ne_eq]
      exact and_comm

theorem nodup_putEntries (hk : (acc.map Prod.fst).Nodup) : ((putEntries acc es).map Prod.fst).Nodup := by
  induction es generalizing acc with
  | nil => exact hk
  | cons e rest ih => exact ih (nodup_putEntry hk)

theorem lookup_putEntries (k : String) (es acc : List (String × α)) :
    (putEntries acc es).lookup k = (es.reverse.lookup k).or (acc.lookup k) := by
  induction es generalizing acc with
  | nil => simp [putEntries]
  | cons e rest ih =>
    obtain ⟨a, y⟩ := e
    refine (ih (putEntry a y acc)).trans ?_
    rw [lookup_putEntry, List.reverse_cons, List.lookup_append, Option.or_assoc]
    congr 1
    by_cases ha : k = a
    · simp [ha]
    · simp [List.lookup_cons, ha, beq_eq_false_iff_ne.2 ha]

theorem mem_putEntries {e : String × α} (he : e ∈ putEntries acc es) : e ∈ acc ∨ e ∈ es := by
  induction es generalizing acc with
  | nil => exact .inl he
  | cons a rest ih =>
    rcases ih he with he | he
    · rcases mem_putEntry he with rfl | he
      · exact .inr List.mem_cons_self
      · exact .inl he
    · exact .inr (List.mem_cons_of_mem a he)

theorem putEntries_of_nodup (hk : ((acc ++ es).map Prod.fst).Nodup) : putEntries acc es = acc ++ es := by
  induction es generalizing acc with
  | nil => exact (List.append_nil acc).symm
  | cons e rest ih =>
    have hnew : e.1 ∉ acc.map Prod.fst := by
      rw [List.map_append, List.nodup_append] at hk
      exact fun hm => hk.2.2 e.1 hm e.1 (by simp) rfl
    have hrest : putEntries (acc ++ [e]) rest = acc ++ [e] ++ rest := ih (by simpa using hk)
    calc putEntries acc (e :: rest) = putEntries (putEntry e.1 e.2 acc) rest := rfl
      _ = putEntries (acc ++ [e]) rest := by rw [putEntry_of_new hnew]
      _ = acc ++ e :: rest := by rw [hrest, List.append_assoc, List.singleton_append]

/-- A value that has been changed under its name is found changed. -/
theorem lookup_map_snd {β : Type} (f : α → β) (es : List (String × α)) :
    (es.map fun e => (e.1, f e.2)).lookup k = (es.lookup k).map f := by
  induction es with
  | nil => rfl
  | cons e rest ih =>
    obtain ⟨a, x⟩ := e
    simp only [List.map_cons, List.lookup_cons]
    cases k == a with
    | true => rfl
    | false => exact ih

end Entries

/-! ## Records -/

namespace Record

/-- A record holds its entries as they were set one after another. -/
theorem entries_ofEntries (es : List (String × Value)) : (ofEntries es).entries = putEntries [] es := by
  have hfold : ∀ r : Record, (es.foldl (fun r e => r.set e.1 e.2) r).entries = putEntries r.entries es := by
    induction es with
    | nil => exact fun _ => rfl
    | cons e rest ih => exact fun r => ih (r.set e.1 e.2)
  exact hfold {}

/-- A record holds nothing but the entries that it was made from. -/
theorem mem_ofEntries {es : List (String × Value)} {e : String × Value} (he : e ∈ (ofEntries es).entries) : e ∈ es := by
  rw [entries_ofEntries] at he
  exact (mem_putEntries he).resolve_left List.not_mem_nil

end Record

end Bracketing.Tree
