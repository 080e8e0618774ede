import Bracketing.Proofs.Document.Condition

/-!
# Settled mappings

Settling a mapping keeps every key at its first place and with its last value.

* **Keys** (`keys_settled`): the keys of a settled mapping are the first occurrences of those written.
* **Values** (`find?_settled`): looking a key up gives the same datum, settled.
* **Distinct keys** (`distinct_settled`): no mapping of a settled datum holds a key twice.
-/

namespace Bracketing.Document

open Bracketing.Tree

namespace Datum

variable {es : List (String × Datum)} {k : String} {d : Datum}

/-- The entries of a mapping, settled. -/
def settledMapping (es : List (String × Datum)) : List (String × Datum) := putEntries [] (settledEntries es)

theorem settled_mapping (es : List (String × Datum)) : (Datum.mapping es).settled = .mapping (settledMapping es) := by
  rw [settled, settledMapping]

theorem eq_list_of_settled {items' : List Datum} (h : d.settled = .list items') :
    ∃ items, d = .list items ∧ items' = items.map settled := by
  cases d with
  | list items =>
    rw [settled, settledItems_eq_map] at h
    exact ⟨items, rfl, (Datum.list.inj h).symm⟩
  | _ => simp [settled] at h

theorem eq_mapping_of_settled {es' : List (String × Datum)} (h : d.settled = .mapping es') :
    ∃ es, d = .mapping es ∧ es' = settledMapping es := by
  cases d with
  | mapping es =>
    rw [settled_mapping] at h
    exact ⟨es, rfl, (Datum.mapping.inj h).symm⟩
  | _ => simp [settled] at h

theorem eq_of_settled {d' : Datum} (hl : ∀ items, d' ≠ .list items) (hm : ∀ es, d' ≠ .mapping es) (h : d.settled = d') :
    d = d' := by
  subst h
  cases d with
  | list items => exact absurd (by rw [settled]) (hl (settledItems items))
  | mapping es => exact absurd (settled_mapping es) (hm (settledMapping es))
  | _ => simp only [settled]

theorem keys_settled (es : List (String × Datum)) :
    (settledMapping es).map Prod.fst = (es.map Prod.fst).eraseDups := by
  rw [settledMapping, map_fst_putEntries, settledEntries_eq_map]
  simp [Function.comp_def]

theorem nodup_settled (es : List (String × Datum)) : ((settledMapping es).map Prod.fst).Nodup :=
  nodup_putEntries List.nodup_nil

/-- With distinct keys, it does not matter from which end a key is looked up. -/
theorem find?_eq_lookup (hk : (es.map Prod.fst).Nodup) : find? es k = es.lookup k := by
  have hr : (es.reverse.map Prod.fst).Nodup := by rwa [List.map_reverse, List.nodup_reverse]
  have hf : find? es.reverse k = es.lookup k := by rw [find?, List.reverse_reverse]
  refine Option.ext fun x => ?_
  rw [← hf, find?_eq_some_iff hk, find?_eq_some_iff hr, List.mem_reverse]

theorem find?_settled (es : List (String × Datum)) : find? (settledMapping es) k = (find? es k).map settled := by
  rw [find?_eq_lookup (nodup_settled es), settledMapping, lookup_putEntries, settledEntries_eq_map,
    ← List.map_reverse, lookup_map_snd]
  simp [find?]

mutual

theorem distinct_settled : ∀ d : Datum, d.settled.Distinct
  | .list items => by
    rw [settled]
    exact .list (distinct_settledItems items)
  | .mapping es => by
    rw [settled_mapping]
    refine .mapping (nodup_settled es) fun e he => ?_
    rcases mem_putEntries he with he | he
    · cases he
    · exact distinct_settledEntries es e he
  | .null | .bool _ | .unsigned _ | .signed _ | .float _ | .str _ => by
    simp only [settled]
    exact .scalar (by simp) (by simp)

theorem distinct_settledItems : ∀ items : List Datum, ∀ d ∈ settledItems items, d.Distinct
  | [], _, hd => by cases hd
  | x :: rest, d, hd => by
    rw [settledItems] at hd
    rcases List.mem_cons.1 hd with rfl | hd
    · exact distinct_settled x
    · exact distinct_settledItems rest d hd

theorem distinct_settledEntries : ∀ es : List (String × Datum), ∀ e ∈ settledEntries es, e.2.Distinct
  | [], _, he => by cases he
  | (k, x) :: rest, e, he => by
    rw [settledEntries] at he
    rcases List.mem_cons.1 he with rfl | he
    · exact distinct_settled x
    · exact distinct_settledEntries rest e he

end

end Datum

/-- Settling a mapping does not change its tag. -/
theorem tag?_settled (es : List (String × Datum)) : Load.tag? (Datum.settledMapping es) = Load.tag? es := by
  unfold Load.tag?
  rw [Datum.find?_settled]
  cases Datum.find? es "type" with
  | none => rfl
  | some d => cases d <;> simp [Datum.settled]

end Bracketing.Document
