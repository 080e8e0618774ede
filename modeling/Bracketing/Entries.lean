/-!
# Entries in the order of first setting

Names with values, kept in the order in which the names were first set: a known name keeps its place and takes the new
value, a new one comes last. That is how a record holds its fields, and also how a mapping with repeated keys is
settled.

* **Names** (`map_fst_putEntry`, `nodup_putEntry`): setting changes no name but a new one, and keeps them distinct.
* **Values** (`lookup_putEntry`): the value just set is found, and every other name has the value that it had.
-/

namespace Bracketing

variable {α : Type} {es : List (String × α)} {k k' : String} {x : α}

/-- The entries with `x` under `k`: in the place of `k`, or last if `k` is new. -/
def putEntry (k : String) (x : α) : List (String × α) → List (String × α)
  | [] => [(k, x)]
  | e :: rest => if e.1 = k then (k, x) :: rest else e :: putEntry k x rest

/-- The entries that arise by setting further ones from left to right. -/
def putEntries (acc es : List (String × α)) : List (String × α) := es.foldl (fun acc e => putEntry e.1 e.2 acc) acc

theorem map_fst_putEntry (k : String) (x : α) (es : List (String × α)) : (putEntry k x es).map Prod.fst =
    if k ∈ es.map Prod.fst then es.map Prod.fst else es.map Prod.fst ++ [k] := by
  induction es with
  | nil => simp [putEntry]
  | cons e rest ih =>
    by_cases he : e.1 = k
    · simp [putEntry, he]
    · have he' : ¬ k = e.1 := fun h => he h.symm
      simp only [putEntry, he, if_false, List.map_cons, ih, List.mem_cons, he', false_or]
      split <;> rfl

theorem nodup_putEntry (hk : (es.map Prod.fst).Nodup) : ((putEntry k x es).map Prod.fst).Nodup := by
  rw [map_fst_putEntry]
  split
  · exact hk
  · rename_i hnew
    refine List.nodup_append.2 ⟨hk, List.nodup_cons.2 ⟨List.not_mem_nil, List.nodup_nil⟩, ?_⟩
    rintro a ha b hb rfl
    exact hnew (List.mem_singleton.1 hb ▸ ha)

theorem lookup_putEntry (es : List (String × α)) :
    (putEntry k x es).lookup k' = if k' = k then some x else es.lookup k' := by
  induction es with
  | nil =>
    by_cases h : k' = k
    · simp [putEntry, h]
    · simp [putEntry, List.lookup_cons, h, beq_eq_false_iff_ne.2 h]
  | cons e rest ih =>
    obtain ⟨a, y⟩ := e
    by_cases ha : a = k
    · subst ha
      by_cases h : k' = a
      · simp [putEntry, h]
      · simp [putEntry, List.lookup_cons, h, beq_eq_false_iff_ne.2 h]
    · by_cases h : k' = a
      · subst h
        simp [putEntry, ha]
      · simp [putEntry, List.lookup_cons, ha, beq_eq_false_iff_ne.2 h, ih]

end Bracketing
