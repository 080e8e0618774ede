import Bracketing.Document.Load
import Bracketing.Proofs.Tree.Entries
import Mathlib.Data.Rat.Cast.Order

/-!
# What a document must satisfy

A mapping can be read as a tree if it has a type, if its tokens are located, and if the remarks and locations of all the
nodes that can be reached in it are what they should be (`WellFormed`). Nothing else is looked at: not what an untyped
mapping holds, nor what stands under a key that is no field.

A violation of that is a complaint at an address, that is, a way down from the root (`Violates`). Addresses come in the
order of the document (`Precedes`), apart from what a node says of itself, which comes after its fields, and from the
coordinates of one position, which may come in any order.

* **Doubles** (`toInt?_eq_some_iff`): a double gives an integer just if it is that number.
* **Conditions** (`wellFormed_iff`): a mapping is well formed just if nothing in it is violated.
-/

namespace Bracketing.Number.Double

/-- The number that a finite double stands for. -/
def rat (x : Double) : ℚ := (if x.negative then -1 else 1) * x.significand * (2 : ℚ) ^ x.exponent

/-- A quotient of integers is an integer just if the division leaves nothing. -/
theorem signed_quotient_iff {sign i : Int} {m u : Nat} (hs : sign = 1 ∨ sign = -1) (hu : 0 < u) :
    (m % u = 0 ∧ sign * (m / u : Nat) = i) ↔ sign * m = i * u := by
  have hdiv : ((m / u : Nat) : Int) * u + (m % u : Nat) = m := by
    exact_mod_cast Nat.div_add_mod' m u
  constructor
  · rintro ⟨hm, rfl⟩
    rw [← hdiv, hm, Int.natCast_zero, Int.add_zero, Int.mul_assoc]
  · intro h
    have hdvd : (u : Int) ∣ m := by
      rcases hs with rfl | rfl
      · exact ⟨i, by rw [Int.mul_comm]; omega⟩
      · exact ⟨-i, by rw [Int.mul_comm, Int.neg_mul]; omega⟩
    have hm : m % u = 0 := Nat.mod_eq_zero_of_dvd (Int.natCast_dvd_natCast.1 hdvd)
    refine ⟨hm, ?_⟩
    have hu' : (u : Int) ≠ 0 := by omega
    refine Int.eq_of_mul_eq_mul_right hu' ?_
    rw [← h, Int.mul_assoc]
    congr 1
    rw [hm] at hdiv
    omega

/-- A double gives an integer just if it is finite and stands for it. -/
theorem toInt?_eq_some_iff {x : Double} {i : Int} : x.toInt? = some i ↔ x.isFinite = true ∧ x.rat = i := by
  have hsign : ((if x.negative then -1 else 1 : Int) : ℚ) = if x.negative then -1 else 1 := by split <;> simp
  have htwo : ∀ n : Nat, ((twoTo n : Nat) : ℚ) = 2 ^ n := fun n => Nat.cast_pow 2 n
  unfold toInt? rat
  by_cases hf : x.isFinite = true
  · by_cases he : 0 ≤ x.exponent
    · have hpow : (2 : ℚ) ^ x.exponent = (twoTo x.exponent.toNat : Nat) := by
        rw [htwo, ← zpow_natCast, Int.toNat_of_nonneg he]
      simp only [hf, he, if_true, Bool.not_true, Bool.false_eq_true, if_false, Option.some.injEq, true_and, hpow]
      rw [← @Int.cast_inj ℚ, ← hsign]
      push_cast
      rw [mul_assoc]
    · have hpow : (2 : ℚ) ^ x.exponent = ((twoTo (-x.exponent).toNat : Nat) : ℚ)⁻¹ := by
        rw [htwo, ← zpow_natCast, Int.toNat_of_nonneg (by omega), zpow_neg, inv_inv]
      have hpos : 0 < twoTo (-x.exponent).toNat := Nat.pow_pos (by decide)
      have hs : (if x.negative then -1 else 1 : Int) = 1 ∨ (if x.negative then -1 else 1 : Int) = -1 := by
        split <;> simp
      simp only [hf, he, if_false, Bool.not_true, Bool.false_eq_true, Option.ite_none_right_eq_some, Option.some.injEq,
        true_and, hpow]
      rw [signed_quotient_iff hs hpos, ← @Int.cast_inj ℚ, ← hsign, ← div_eq_mul_inv,
        div_eq_iff (Nat.cast_ne_zero.2 hpos.ne')]
      push_cast
      rfl
  · simp [hf]

end Bracketing.Number.Double

namespace Bracketing.Document

open Bracketing.Number Bracketing.Tree

/-! ## Distinct keys -/

namespace Datum

/-- No mapping of the datum holds a key twice. -/
inductive Distinct : Datum → Prop
  | list {items : List Datum} (hi : ∀ d ∈ items, Distinct d) : Distinct (.list items)
  | mapping {es : List (String × Datum)} (hk : (es.map Prod.fst).Nodup) (he : ∀ e ∈ es, Distinct e.2) :
    Distinct (.mapping es)
  | scalar {d : Datum} (hl : ∀ items, d ≠ .list items) (hm : ∀ es, d ≠ .mapping es) : Distinct d

@[simp] theorem distinct_list {items : List Datum} : (Datum.list items).Distinct ↔ ∀ d ∈ items, d.Distinct := by
  refine ⟨fun h => ?_, .list⟩
  cases h with
  | list hi => exact hi
  | scalar hl _ => exact absurd rfl (hl items)

@[simp] theorem distinct_mapping {es : List (String × Datum)} :
    (Datum.mapping es).Distinct ↔ (es.map Prod.fst).Nodup ∧ ∀ e ∈ es, e.2.Distinct := by
  refine ⟨fun h => ?_, fun h => .mapping h.1 h.2⟩
  cases h with
  | mapping hk he => exact ⟨hk, he⟩
  | scalar _ hm => exact absurd rfl (hm es)

variable {es : List (String × Datum)} {k : String} {d : Datum}

theorem mem_of_find? (h : find? es k = some d) : (k, d) ∈ es := by
  obtain ⟨l₁, l₂, he, -⟩ := List.lookup_eq_some_iff.1 h
  rw [← List.mem_reverse, he]
  simp

/-- With distinct keys, looking a key up gives its entry. -/
theorem find?_eq_some_iff (hk : (es.map Prod.fst).Nodup) : find? es k = some d ↔ (k, d) ∈ es := by
  refine ⟨mem_of_find?, fun hm => ?_⟩
  obtain ⟨l₁, l₂, he⟩ := List.append_of_mem (List.mem_reverse.2 hm)
  refine List.lookup_eq_some_iff.2 ⟨l₁, l₂, he, fun e hel => ?_⟩
  have hd : (es.reverse.map Prod.fst).Nodup := by rwa [List.map_reverse, List.nodup_reverse]
  rw [he, List.map_append, List.nodup_append] at hd
  simpa [bne_iff_ne] using fun heq : k = e.1 => hd.2.2 e.1 (List.mem_map_of_mem hel) k (by simp) heq.symm

/-- With distinct keys, a key has one value. -/
theorem eq_of_mem_of_mem {x y : Datum} (hk : (es.map Prod.fst).Nodup) (hx : (k, x) ∈ es) (hy : (k, y) ∈ es) :
    x = y := by
  have := (find?_eq_some_iff hk).2 hx
  rw [(find?_eq_some_iff hk).2 hy] at this
  exact (Option.some.inj this).symm

theorem find?_eq_none_iff : find? es k = none ↔ ∀ d, (k, d) ∉ es := by
  rw [find?, List.lookup_eq_none_iff]
  constructor
  · intro h d hm
    simpa using h (k, d) (List.mem_reverse.2 hm)
  · rintro h ⟨l, d⟩ hm
    simp only [bne_iff_ne, ne_eq]
    rintro rfl
    exact h d (List.mem_reverse.1 hm)

theorem settledItems_eq_map : ∀ items : List Datum, settledItems items = items.map settled
  | [] => rfl
  | d :: rest => by rw [settledItems, settledItems_eq_map rest, List.map_cons]

theorem settledEntries_eq_map : ∀ es : List (String × Datum), settledEntries es = es.map fun e => (e.1, e.2.settled)
  | [] => rfl
  | (k, d) :: rest => by rw [settledEntries, settledEntries_eq_map rest, List.map_cons]

/-- A datum with distinct keys is settled. -/
theorem Distinct.settled_eq (hd : d.Distinct) : d.settled = d := by
  induction hd with
  | list _ ih =>
    rw [settled, settledItems_eq_map, List.map_congr_left ih, List.map_id']
  | @mapping es hk _ ih =>
    have he : es.map (fun e => (e.1, e.2.settled)) = es := by
      refine (List.map_congr_left fun e hm => ?_).trans (List.map_id es)
      rw [ih e hm, id]
    rw [settled, settledEntries_eq_map, he, putEntries_of_nodup (by simpa using hk), List.nil_append]
  | scalar hl hm =>
    rename_i d
    cases d with
    | list items => exact absurd rfl (hl items)
    | mapping es => exact absurd rfl (hm es)
    | _ => rfl

/-! ## Well-formed documents -/

/-- An integer of a word, or a floating-point number that is an integer of a signed word. -/
def Whole : Datum → Prop
  | .unsigned _ | .signed _ => True
  | .float x => x.isFinite = true ∧ ∃ i : Int, x.rat = i ∧ -2 ^ 63 ≤ i ∧ i < 2 ^ 63
  | _ => False

/-- The data that stand for a word are the whole ones. -/
theorem isSome_toWord? (d : Datum) : d.toWord?.isSome = true ↔ d.Whole := by
  cases d with
  | float x =>
    have hbound : (twoTo 63 : Int) = 2 ^ 63 := rfl
    simp only [toWord?, Whole, hbound]
    cases hx : x.toInt? with
    | none =>
      simp only [Option.isSome_none, Bool.false_eq_true, false_iff]
      rintro ⟨hf, i, hi, -⟩
      rw [Double.toInt?_eq_some_iff.2 ⟨hf, hi⟩] at hx
      cases hx
    | some i =>
      obtain ⟨hf, hi⟩ := Double.toInt?_eq_some_iff.1 hx
      by_cases hr : -2 ^ 63 ≤ i ∧ i < 2 ^ 63
      · simp only [hr, decide_true, Bool.and_self, if_true, Option.isSome_some, true_iff]
        exact ⟨hf, i, hi, hr⟩
      · have hno : (decide (-(2 ^ 63) ≤ i) && decide (i < 2 ^ 63)) = false := by
          simpa [Bool.and_eq_false_iff, ← not_and_or] using hr
        simp only [hno, Bool.false_eq_true, if_false, Option.isSome_none, false_iff]
        rintro ⟨-, j, hj, hr'⟩
        rw [hi] at hj
        exact hr (Int.cast_injective hj ▸ hr')
  | _ => simp [toWord?, Whole]

end Datum

/-- A mapping whose coordinates, as far as there are any, are whole. -/
def GoodPosition (d : Datum) : Prop :=
  ∃ es, d = .mapping es ∧ ∀ (c : Coordinate) x, (c.key, x) ∈ es → x.Whole

/-- A mapping with a good start and a good end. -/
def GoodLocation (d : Datum) : Prop :=
  ∃ es, d = .mapping es ∧ (∃ x, ("start", x) ∈ es ∧ GoodPosition x) ∧ ∃ x, ("end", x) ∈ es ∧ GoodPosition x

/-- A mapping with a good location. -/
def GoodToken (d : Datum) : Prop := ∃ es, d = .mapping es ∧ ∃ x, ("loc", x) ∈ es ∧ GoodLocation x

/-- The entries of a node: they have a type that is not empty. -/
def Typed (es : List (String × Datum)) (tag : String) : Prop := ("type", .str tag) ∈ es ∧ tag ≠ ""

/-- The remarks of a node are a mapping and its location is good, unless there is none. -/
def GoodNode (es : List (String × Datum)) : Prop :=
  (∀ x, ("extra", x) ∈ es → x = .null ∨ ∃ fs, x = .mapping fs) ∧ ∀ x, ("loc", x) ∈ es → x = .null ∨ GoodLocation x

/-- The second datum is a part of the first that becomes a part of the tree. -/
inductive Reaches : Datum → Datum → Prop
  | refl (d : Datum) : Reaches d d
  | item {items : List Datum} {x d : Datum} (hx : x ∈ items) (hd : Reaches x d) : Reaches (.list items) d
  | field {es : List (String × Datum)} {tag k : String} {x d : Datum} (ht : Typed es tag) (hx : (k, x) ∈ es)
    (hk : k ∉ Load.skippedKeys) (hd : Reaches x d) : Reaches (.mapping es) d

/-- The entries of a root from which a tree can be read. -/
structure WellFormed (es : List (String × Datum)) : Prop where
  typed : ∃ tag, Typed es tag
  tokens : ∀ d, ("tokens", d) ∈ es → ∃ items, d = .list items ∧ ∀ x ∈ items, GoodToken x
  nodes : ∀ fs tag, Reaches (.mapping es) (.mapping fs) → Typed fs tag → GoodNode fs

/-! ## Addresses -/

/-- A step on the way down into a document. -/
inductive Segment where
  | tokens
  | tree
  | whole
  | item (i : Nat)
  | tag (t : String)
  | field (i : Nat) (key : String)
  | extra
  | loc
  | start
  | stop
  | coordinate (c : Coordinate)

namespace Segment

/-- What a step adds to the text of a place. -/
def text : Segment → String
  | tokens => ".tokens"
  | tree | whole => ""
  | item i => "[" ++ toString i ++ "]"
  | tag t => "(" ++ t ++ ")"
  | field _ key => "." ++ key
  | extra => ".extra"
  | loc => ".loc"
  | start => ".start"
  | stop => ".end"
  | coordinate c => "." ++ c.key

/-- The first step leads to an earlier part than the second: tokens are before the tree, items and fields in order, and
the fields of a node before its remarks and its location. The coordinates of a position have no order. -/
inductive Before : Segment → Segment → Prop
  | tokens_tree : Before tokens tree
  | tokens_whole : Before tokens whole
  | tree_whole : Before tree whole
  | item {i j : Nat} (h : i < j) : Before (item i) (item j)
  | field {i j : Nat} {k l : String} (h : i < j) : Before (field i k) (field j l)
  | field_extra {i : Nat} {k : String} : Before (field i k) extra
  | field_loc {i : Nat} {k : String} : Before (field i k) loc
  | extra_loc : Before extra loc
  | start_stop : Before start stop

theorem Before.irrefl {s : Segment} : ¬ s.Before s := by
  intro h
  cases h with
  | item h => exact Nat.lt_irrefl _ h
  | field h => exact Nat.lt_irrefl _ h

end Segment

/-- The two addresses are those of different coordinates of one position. -/
inductive Beside : List Segment → List Segment → Prop
  | here {c c' : Coordinate} (hc : c ≠ c') : Beside [.coordinate c] [.coordinate c']
  | down (s : Segment) {a b : List Segment} (h : Beside a b) : Beside (s :: a) (s :: b)

/-- The first address comes before the second in a document, as far as that is settled: two coordinates of one position
may come in either order. -/
def Precedes (a b : List Segment) : Prop := List.Lex Segment.Before a b ∨ Beside a b

theorem not_lex_self : ∀ a : List Segment, ¬ List.Lex Segment.Before a a
  | [], h => by cases h
  | s :: a, h => by
    cases h with
    | rel h => exact h.irrefl
    | cons h => exact not_lex_self a h

theorem not_beside_self : ∀ a : List Segment, ¬ Beside a a
  | [], h => by cases h
  | s :: a, h => by
    cases h with
    | here hc => exact hc rfl
    | down _ h => exact not_beside_self a h

theorem Precedes.ne {a b : List Segment} (h : Precedes a b) : a ≠ b := by
  rintro rfl
  exact h.elim (not_lex_self a) (not_beside_self a)

theorem Precedes.down {a b : List Segment} (s : Segment) (h : Precedes a b) : Precedes (s :: a) (s :: b) :=
  h.imp .cons (.down s)

/-- The text of the place that is reached from a place. -/
def placeOf (place : String) (address : List Segment) : String := address.foldl (fun p s => p ++ s.text) place

/-- What can be wrong at an address. -/
inductive Complaint where
  | untyped
  | notObject (typeName : String)
  | notArray (typeName : String)
  | notInteger (typeName : String)
  | noLocation

/-- The defect that is reported for a complaint at a place. -/
def Complaint.fault (place : String) : Complaint → Fault
  | untyped => .untypedRoot
  | notObject typeName => .notObject place typeName
  | notArray typeName => .notArray place typeName
  | notInteger typeName => .notInteger place typeName
  | noLocation => .noLocation place

/-! ## Violations -/

/-- What is wrong with a position. -/
inductive BadPosition : Datum → List Segment → Complaint → Prop
  | notObject {d : Datum} (hd : d.entries? = none) : BadPosition d [] (.notObject d.typeName)
  | coordinate {es : List (String × Datum)} {c : Coordinate} {x : Datum} (hx : (c.key, x) ∈ es) (hw : ¬ x.Whole) :
    BadPosition (.mapping es) [.coordinate c] (.notInteger x.typeName)

/-- The datum under a key, or nothing. -/
def Under (es : List (String × Datum)) (k : String) (x : Datum) : Prop :=
  (k, x) ∈ es ∨ (∀ y, (k, y) ∉ es) ∧ x = .null

/-- What is wrong with a location; a start or an end that is missing counts as nothing. -/
inductive BadLocation : Datum → List Segment → Complaint → Prop
  | notObject {d : Datum} (hd : d.entries? = none) : BadLocation d [] (.notObject d.typeName)
  | start {es : List (String × Datum)} {x : Datum} {a : List Segment} {c : Complaint} (hx : Under es "start" x)
    (hb : BadPosition x a c) : BadLocation (.mapping es) (.start :: a) c
  | stop {es : List (String × Datum)} {x : Datum} {a : List Segment} {c : Complaint} (hx : Under es "end" x)
    (hb : BadPosition x a c) : BadLocation (.mapping es) (.stop :: a) c

/-- What is wrong with a token. -/
inductive BadToken : Datum → List Segment → Complaint → Prop
  | notObject {d : Datum} (hd : d.entries? = none) : BadToken d [] (.notObject d.typeName)
  | noLocation {es : List (String × Datum)} (hx : ∀ x, ("loc", x) ∉ es) : BadToken (.mapping es) [] .noLocation
  | loc {es : List (String × Datum)} {x : Datum} {a : List Segment} {c : Complaint} (hx : ("loc", x) ∈ es)
    (hb : BadLocation x a c) : BadToken (.mapping es) (.loc :: a) c

/-- What is wrong with what a node says of itself. -/
inductive BadNode (es : List (String × Datum)) : List Segment → Complaint → Prop
  | extra {x : Datum} (hx : ("extra", x) ∈ es) (hn : x ≠ .null) (hd : x.entries? = none) :
    BadNode es [.extra] (.notObject x.typeName)
  | loc {x : Datum} {a : List Segment} {c : Complaint} (hx : ("loc", x) ∈ es) (hn : x ≠ .null)
    (hb : BadLocation x a c) : BadNode es (.loc :: a) c

/-- What is wrong with a part of the tree. -/
inductive BadPart : Datum → List Segment → Complaint → Prop
  | item {items : List Datum} {i : Nat} {x : Datum} {a : List Segment} {c : Complaint} (hx : items[i]? = some x)
    (hb : BadPart x a c) : BadPart (.list items) (.item i :: a) c
  | field {es : List (String × Datum)} {tag k : String} {i : Nat} {x : Datum} {a : List Segment} {c : Complaint}
    (ht : Typed es tag) (hx : es[i]? = some (k, x)) (hk : k ∉ Load.skippedKeys) (hb : BadPart x a c) :
    BadPart (.mapping es) (.tag tag :: .field i k :: a) c
  | node {es : List (String × Datum)} {tag : String} {a : List Segment} {c : Complaint} (ht : Typed es tag)
    (hb : BadNode es a c) : BadPart (.mapping es) (.tag tag :: a) c

/-- What is wrong with the entries of a root. -/
inductive Violates (es : List (String × Datum)) : List Segment → Complaint → Prop
  | notArray {d : Datum} (hd : ("tokens", d) ∈ es) (hl : ∀ items, d ≠ .list items) :
    Violates es [.tokens] (.notArray d.typeName)
  | token {items : List Datum} {i : Nat} {x : Datum} {a : List Segment} {c : Complaint}
    (hd : ("tokens", .list items) ∈ es) (hx : items[i]? = some x) (hb : BadToken x a c) :
    Violates es (.tokens :: .item i :: a) c
  | tree {a : List Segment} {c : Complaint} (hb : BadPart (.mapping es) a c) : Violates es (.tree :: a) c
  | untyped (ht : ∀ tag, ¬ Typed es tag) : Violates es [.whole] .untyped

theorem eq_mapping_of_entries? {d : Datum} (h : d.entries? ≠ none) : ∃ es, d = .mapping es := by
  cases d with
  | mapping es => exact ⟨es, rfl⟩
  | _ => exact absurd rfl h

theorem goodPosition_iff {d : Datum} : GoodPosition d ↔ ∀ a c, ¬ BadPosition d a c := by
  constructor
  · rintro ⟨es, rfl, hw⟩ a c hb
    cases hb with
    | notObject hd => cases hd
    | coordinate hx hw' => exact hw' (hw _ _ hx)
  · intro h
    obtain ⟨es, rfl⟩ := eq_mapping_of_entries? fun hd => h _ _ (.notObject hd)
    exact ⟨es, rfl, fun c x hx => by_contra fun hw => h _ _ (.coordinate hx hw)⟩

/-- A key with a good position under it: what stands there, or nothing in its place, has nothing wrong with it. -/
theorem exists_goodPosition_iff {es : List (String × Datum)} {k : String} (hk : (es.map Prod.fst).Nodup) :
    (∃ x, (k, x) ∈ es ∧ GoodPosition x) ↔ ∀ x, Under es k x → ∀ a c, ¬ BadPosition x a c := by
  constructor
  · rintro ⟨x, hx, hg⟩ y hy a c hb
    rcases hy with hy | ⟨hno, -⟩
    · exact goodPosition_iff.1 hg a c (Datum.eq_of_mem_of_mem hk hx hy ▸ hb)
    · exact hno x hx
  · intro h
    by_cases hx : ∃ x, (k, x) ∈ es
    · obtain ⟨x, hx⟩ := hx
      exact ⟨x, hx, goodPosition_iff.2 (h x (.inl hx))⟩
    · have hnull : Under es k .null := .inr ⟨fun y hy => hx ⟨y, hy⟩, rfl⟩
      exact absurd (.notObject rfl) (h .null hnull [] _)

theorem goodLocation_iff {d : Datum} (hd : d.Distinct) : GoodLocation d ↔ ∀ a c, ¬ BadLocation d a c := by
  constructor
  · rintro ⟨es, rfl, hstart, hstop⟩ a c hb
    have hk := (Datum.distinct_mapping.1 hd).1
    cases hb with
    | notObject h => cases h
    | start hx hb => exact (exists_goodPosition_iff hk).1 hstart _ hx _ _ hb
    | stop hx hb => exact (exists_goodPosition_iff hk).1 hstop _ hx _ _ hb
  · intro h
    obtain ⟨es, rfl⟩ := eq_mapping_of_entries? fun hd => h _ _ (.notObject hd)
    have hk := (Datum.distinct_mapping.1 hd).1
    exact ⟨es, rfl, (exists_goodPosition_iff hk).2 fun x hx a c hb => h _ _ (.start hx hb),
      (exists_goodPosition_iff hk).2 fun x hx a c hb => h _ _ (.stop hx hb)⟩

theorem goodToken_iff {d : Datum} (hd : d.Distinct) : GoodToken d ↔ ∀ a c, ¬ BadToken d a c := by
  constructor
  · rintro ⟨es, rfl, x, hx, hg⟩ a c hb
    obtain ⟨hk, he⟩ := Datum.distinct_mapping.1 hd
    cases hb with
    | notObject h => cases h
    | noLocation hno => exact hno x hx
    | loc hy hb =>
      obtain rfl := Datum.eq_of_mem_of_mem hk hx hy
      exact (goodLocation_iff (he _ hx)).1 hg _ _ hb
  · intro h
    obtain ⟨es, rfl⟩ := eq_mapping_of_entries? fun hd => h _ _ (.notObject hd)
    obtain ⟨x, hx⟩ : ∃ x, ("loc", x) ∈ es := by
      by_contra hno
      exact h _ _ (.noLocation fun x hx => hno ⟨x, hx⟩)
    have hx' := (Datum.distinct_mapping.1 hd).2 _ hx
    exact ⟨es, rfl, x, hx, (goodLocation_iff hx').2 fun a c hb => h _ _ (.loc hx hb)⟩

theorem goodNode_iff {es : List (String × Datum)} (he : ∀ e ∈ es, e.2.Distinct) :
    GoodNode es ↔ ∀ a c, ¬ BadNode es a c := by
  constructor
  · rintro ⟨hextra, hloc⟩ a c hb
    cases hb with
    | extra hx hn hd =>
      rcases hextra _ hx with rfl | ⟨fs, rfl⟩
      · exact hn rfl
      · cases hd
    | loc hx hn hb =>
      rcases hloc _ hx with rfl | hg
      · exact hn rfl
      · exact (goodLocation_iff (he _ hx)).1 hg _ _ hb
  · intro h
    refine ⟨fun x hx => ?_, fun x hx => ?_⟩
    · by_cases hn : x = .null
      · exact .inl hn
      · exact .inr (eq_mapping_of_entries? fun hd => h _ _ (.extra hx hn hd))
    · by_cases hn : x = .null
      · exact .inl hn
      · exact .inr ((goodLocation_iff (he _ hx)).2 fun a c hb => h _ _ (.loc hx hn hb))

theorem Reaches.distinct {d x : Datum} (hr : Reaches d x) (hd : d.Distinct) : x.Distinct := by
  induction hr with
  | refl => exact hd
  | item hx _ ih => exact ih (Datum.distinct_list.1 hd _ hx)
  | field _ hx _ _ ih => exact ih ((Datum.distinct_mapping.1 hd).2 _ hx)

/-- Something is wrong with a part of the tree just if it is with a node in it. -/
theorem exists_badPart_iff {d : Datum} : (∃ a c, BadPart d a c) ↔
    ∃ fs tag, Reaches d (.mapping fs) ∧ Typed fs tag ∧ ∃ a c, BadNode fs a c := by
  constructor
  · rintro ⟨a, c, hb⟩
    induction hb with
    | item hx _ ih =>
      obtain ⟨fs, tag, hr, hbad⟩ := ih
      exact ⟨fs, tag, .item (List.mem_of_getElem? hx) hr, hbad⟩
    | field ht hx hk _ ih =>
      obtain ⟨fs, tag, hr, hbad⟩ := ih
      exact ⟨fs, tag, .field ht (List.mem_of_getElem? hx) hk hr, hbad⟩
    | node ht hb => exact ⟨_, _, .refl _, ht, _, _, hb⟩
  · rintro ⟨fs, tag, hr, ht, hbad⟩
    generalize hx : Datum.mapping fs = x at hr
    induction hr with
    | refl d =>
      obtain ⟨a, c, hb⟩ := hbad
      exact hx ▸ ⟨_, c, .node ht hb⟩
    | item hm _ ih =>
      obtain ⟨a, c, hb⟩ := ih hx
      obtain ⟨i, hi⟩ := List.mem_iff_getElem?.1 hm
      exact ⟨_, c, .item hi hb⟩
    | field ht' hm hk _ ih =>
      obtain ⟨a, c, hb⟩ := ih hx
      obtain ⟨i, hi⟩ := List.mem_iff_getElem?.1 hm
      exact ⟨_, c, .field ht' hi hk hb⟩

/-- The entries of a root are well formed just if nothing in them is violated. -/
theorem wellFormed_iff {es : List (String × Datum)} (hd : (Datum.mapping es).Distinct) :
    WellFormed es ↔ ∀ a c, ¬ Violates es a c := by
  have he := (Datum.distinct_mapping.1 hd).2
  constructor
  · rintro ⟨⟨tag, ht⟩, htokens, hnodes⟩ a c hv
    cases hv with
    | notArray hm hl =>
      obtain ⟨items, rfl, -⟩ := htokens _ hm
      exact hl items rfl
    | token hm hx hb =>
      obtain ⟨items, hi, hg⟩ := htokens _ hm
      cases hi
      have hx' := List.mem_of_getElem? hx
      exact (goodToken_iff (Datum.distinct_list.1 (he _ hm) _ hx')).1 (hg _ hx') _ _ hb
    | tree hb =>
      obtain ⟨fs, tag, hr, ht, a, c, hb⟩ := exists_badPart_iff.1 ⟨_, _, hb⟩
      exact (goodNode_iff (Datum.distinct_mapping.1 (hr.distinct hd)).2).1 (hnodes fs tag hr ht) a c hb
    | untyped hno => exact hno tag ht
  · intro h
    refine ⟨?_, fun d hm => ?_, fun fs tag hr ht => ?_⟩
    · by_contra hno
      exact h _ _ (.untyped fun tag ht => hno ⟨tag, ht⟩)
    · obtain ⟨items, rfl⟩ : ∃ items, d = .list items := by
        by_contra hno
        exact h _ _ (.notArray hm fun items hi => hno ⟨items, hi⟩)
      refine ⟨items, rfl, fun x hx => ?_⟩
      obtain ⟨i, hi⟩ := List.mem_iff_getElem?.1 hx
      exact (goodToken_iff (Datum.distinct_list.1 (he _ hm) x hx)).2 fun a c hb => h _ _ (.token hm hi hb)
    · refine (goodNode_iff (Datum.distinct_mapping.1 (hr.distinct hd)).2).2 fun a c hb => ?_
      obtain ⟨a, c, hb⟩ := exists_badPart_iff.2 ⟨fs, tag, hr, ht, a, c, hb⟩
      exact h _ _ (.tree hb)

end Bracketing.Document
