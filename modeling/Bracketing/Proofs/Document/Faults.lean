import Bracketing.Proofs.Document.Condition

/-!
# The defects of a document

Reading a document reports the violations of what it must satisfy, in whatever order the coordinates of its positions
are read: each of them once, in the order of their addresses (`Reports`). What a part reports is put together from what
its parts report (`Reports.down`, `Reports.append`).

* **One datum** (`adds_value`, with its items and fields): the defects added are the violations in it.
* **A document** (`load_exact`): it gives a tree just if it is well formed, and all its violations if it is not.
-/

namespace Bracketing.Document

open Bracketing.Source Bracketing.Tree

/-! ## Reports -/

/-- A complaint at an address. -/
structure Violation where
  address : List Segment
  complaint : Complaint

/-- The defect that is reported for a violation below a place. -/
def Violation.fault (place : String) (v : Violation) : Fault := v.complaint.fault (placeOf place v.address)

/-- The address of the first violation comes before that of the second. -/
def Violation.Before (v w : Violation) : Prop := Precedes v.address w.address

theorem Violation.Before.ne {v w : Violation} (h : v.Before w) : v ≠ w := by
  rintro rfl
  exact Precedes.ne h rfl

/-- The complaint alone, right here. -/
def Here (c : Complaint) (a : List Segment) (c' : Complaint) : Prop := a = [] ∧ c' = c

/-- What is described, one step further down. -/
def Down (s : Segment) (P : List Segment → Complaint → Prop) (a : List Segment) (c : Complaint) : Prop :=
  ∃ b, a = s :: b ∧ P b c

/-- The defects are those of the violations below a place that are described, each once and in order. -/
def Reports (place : String) (faults : List Fault) (P : List Segment → Complaint → Prop) : Prop :=
  ∃ vs : List Violation, vs.map (Violation.fault place) = faults ∧ vs.Pairwise Violation.Before ∧
    ∀ a c, ⟨a, c⟩ ∈ vs ↔ P a c

namespace Reports

variable {place place' : String} {fs gs : List Fault} {P Q : List Segment → Complaint → Prop}

theorem none (hP : ∀ a c, ¬ P a c) : Reports place [] P :=
  ⟨[], rfl, .nil, fun a c => by simp [hP]⟩

theorem here (place : String) (c : Complaint) : Reports place [c.fault place] (Here c) :=
  ⟨[⟨[], c⟩], rfl, List.pairwise_singleton _ _, fun a c' => by simp [Here]⟩

theorem of_iff (hf : Reports place fs P) (hPQ : ∀ a c, P a c ↔ Q a c) : Reports place fs Q := by
  obtain ⟨vs, hmap, hord, hmem⟩ := hf
  exact ⟨vs, hmap, hord, fun a c => (hmem a c).trans (hPQ a c)⟩

theorem down {s : Segment} (hf : Reports place' fs P) (hp : place' = place ++ s.text) :
    Reports place fs (Down s P) := by
  obtain ⟨vs, hmap, hord, hmem⟩ := hf
  subst hp
  refine ⟨vs.map fun v => ⟨s :: v.address, v.complaint⟩, ?_, ?_, fun a c => ?_⟩
  · rw [List.map_map]
    exact hmap
  · exact List.pairwise_map.2 (hord.imp fun h => h.down s)
  · simp only [List.mem_map, Violation.mk.injEq]
    constructor
    · rintro ⟨v, hv, rfl, rfl⟩
      exact ⟨v.address, rfl, (hmem _ _).1 hv⟩
    · rintro ⟨b, rfl, hb⟩
      exact ⟨⟨b, c⟩, (hmem b c).2 hb, rfl, rfl⟩

/-- Two reports one after the other, if all addresses of the first are before those of the second. -/
theorem append (hf : Reports place fs P) (hg : Reports place gs Q)
    (hord : ∀ a c b c', P a c → Q b c' → Precedes a b) :
    Reports place (fs ++ gs) fun a c => P a c ∨ Q a c := by
  obtain ⟨vs, hmap, hv, hmem⟩ := hf
  obtain ⟨ws, hmap', hw, hmem'⟩ := hg
  refine ⟨vs ++ ws, by rw [List.map_append, hmap, hmap'], ?_, fun a c => by rw [List.mem_append, hmem, hmem']⟩
  exact List.pairwise_append.2 ⟨hv, hw, fun v hv w hw => hord _ _ _ _ ((hmem _ _).1 hv) ((hmem' _ _).1 hw)⟩

end Reports

/-- What is one step down is before what is one step down later. -/
theorem precedes_of_down {s t : Segment} {P Q : List Segment → Complaint → Prop} (hst : s.Before t)
    (a : List Segment) (c : Complaint) (b : List Segment) (c' : Complaint) (ha : Down s P a c) (hb : Down t Q b c') :
    Precedes a b := by
  obtain ⟨a, rfl, -⟩ := ha
  obtain ⟨b, rfl, -⟩ := hb
  exact .inl (.rel hst)

/-! ## Positions, locations and tokens -/

section Parts

variable (place : String) {d : Datum} {es : List (String × Datum)}

/-- What is wrong with one coordinate. -/
def BadCoordinate (es : List (String × Datum)) (k : Coordinate) (a : List Segment) (c : Complaint) : Prop :=
  ∃ x, (k.key, x) ∈ es ∧ ¬ x.Whole ∧ Here (.notInteger x.typeName) a c

theorem reports_coordinate (hk : (es.map Prod.fst).Nodup) (c : Coordinate) :
    Reports place (Load.coordinate place es c).2 (Down (.coordinate c) (BadCoordinate es c)) := by
  have hplace : place ++ "." ++ c.key = place ++ (Segment.coordinate c).text := String.append_assoc
  unfold Load.coordinate
  split
  · rename_i hx
    refine .none ?_
    rintro a k ⟨b, -, x, hm, -⟩
    exact Datum.find?_eq_none_iff.1 hx x hm
  · rename_i x hx
    have hm := Datum.mem_of_find? hx
    split
    · rename_i i hi
      refine .none ?_
      rintro a k ⟨b, -, y, hy, hw, -⟩
      obtain rfl := Datum.eq_of_mem_of_mem hk hm hy
      exact hw ((Datum.isSome_toWord? x).1 (by rw [hi]; rfl))
    · rename_i hi
      have hw : ¬ x.Whole := fun hw => by simpa [hi] using (Datum.isSome_toWord? x).2 hw
      have hbad : ∀ a k, Here (.notInteger x.typeName) a k ↔ BadCoordinate es c a k := by
        refine fun a k => ⟨fun h => ⟨x, hm, hw, h⟩, ?_⟩
        rintro ⟨y, hy, -, h⟩
        exact Datum.eq_of_mem_of_mem hk hm hy ▸ h
      exact ((Reports.here _ (.notInteger x.typeName)).of_iff hbad).down hplace

/-- Different coordinates of one position may be reported in either order. -/
theorem precedes_of_badCoordinate {k k' : Coordinate} {a b : List Segment} {c c' : Complaint} (hne : k ≠ k')
    (ha : Down (.coordinate k) (BadCoordinate es k) a c) (hb : Down (.coordinate k') (BadCoordinate es k') b c') :
    Precedes a b := by
  obtain ⟨_, rfl, x, -, -, rfl, -⟩ := ha
  obtain ⟨_, rfl, y, -, -, rfl, -⟩ := hb
  exact .inr (.here hne)

/-- Coordinates that are read one after another report what is wrong with each of them. -/
theorem reports_coordinates (hk : (es.map Prod.fst).Nodup) : ∀ ks : List Coordinate, ks.Nodup →
    Reports place (ks.flatMap fun k => (Load.coordinate place es k).2) fun a c =>
      ∃ k ∈ ks, Down (.coordinate k) (BadCoordinate es k) a c
  | [], _ => .none fun a c ⟨_, hm, _⟩ => by cases hm
  | k :: rest, hn => by
    obtain ⟨hnew, hn⟩ := List.nodup_cons.1 hn
    have hrest := reports_coordinates hk rest hn
    refine ((reports_coordinate place hk k).append hrest ?_).of_iff fun a c => ?_
    · rintro a c b c' ha ⟨k', hm, hb⟩
      exact precedes_of_badCoordinate (fun h : k = k' => hnew (h ▸ hm)) ha hb
    · simp only [List.mem_cons, exists_eq_or_imp]

theorem eq_mapping_of_entries?_eq_some (he : d.entries? = some es) : d = .mapping es := by
  cases d <;> cases he
  rfl

theorem Load.Reading.nodup (r : Load.Reading) : r.order.Nodup := r.perm.nodup_iff.2 (by decide)

theorem Load.Reading.mem (r : Load.Reading) (c : Coordinate) : c ∈ r.order :=
  r.perm.mem_iff.2 (by cases c <;> decide)

theorem reports_position (r : Load.Reading) (hd : d.Distinct) :
    Reports place (Load.position r place d).2 (BadPosition d) := by
  unfold Load.position
  split
  · rename_i hno
    refine (Reports.here _ (.notObject d.typeName)).of_iff fun a c => ⟨?_, fun hb => ?_⟩
    · rintro ⟨rfl, rfl⟩
      exact .notObject hno
    · cases hb with
      | notObject => exact ⟨rfl, rfl⟩
      | coordinate => cases hno
  · rename_i es hes
    obtain rfl := eq_mapping_of_entries?_eq_some hes
    have hk := (Datum.distinct_mapping.1 hd).1
    refine (reports_coordinates place hk r.order r.nodup).of_iff fun a c => ⟨?_, fun hb => ?_⟩
    · rintro ⟨k, -, _, rfl, x, hx, hw, rfl, rfl⟩
      exact .coordinate hx hw
    · cases hb with
      | notObject hno => cases hno
      | coordinate hx hw => exact ⟨_, r.mem _, [], rfl, _, hx, hw, rfl, rfl⟩

/-- What stands under a key is what is found there, or nothing. -/
theorem under_iff {k : String} {x : Datum} (hk : (es.map Prod.fst).Nodup) :
    Under es k x ↔ (Datum.find? es k).getD .null = x := by
  cases hf : Datum.find? es k with
  | none =>
    have hno := Datum.find?_eq_none_iff.1 hf
    simp [Under, hno, eq_comm]
  | some y =>
    have hm := Datum.mem_of_find? hf
    constructor
    · rintro (hx | ⟨hno, -⟩)
      · exact Datum.eq_of_mem_of_mem hk hm hx
      · exact absurd hm (hno y)
    · rintro rfl
      exact .inl hm

theorem distinct_getD {k : String} (hd : (Datum.mapping es).Distinct) :
    ((Datum.find? es k).getD .null).Distinct := by
  cases hf : Datum.find? es k with
  | none => exact .scalar (by simp) (by simp)
  | some x => exact (Datum.distinct_mapping.1 hd).2 _ (Datum.mem_of_find? hf)

theorem reports_span (r : Load.SpanReading) (hd : d.Distinct) :
    Reports place (Load.span r place d).2 (BadLocation d) := by
  unfold Load.span
  split
  · rename_i hno
    refine (Reports.here _ (.notObject d.typeName)).of_iff fun a c => ⟨?_, fun hb => ?_⟩
    · rintro ⟨rfl, rfl⟩
      exact .notObject hno
    · cases hb with
      | notObject => exact ⟨rfl, rfl⟩
      | _ => cases hno
  · rename_i es hes
    obtain rfl := eq_mapping_of_entries?_eq_some hes
    have hk := (Datum.distinct_mapping.1 hd).1
    have hstart := (reports_position (place ++ ".start") r.start (distinct_getD (k := "start") hd)).down
      (s := .start) rfl
    have hstop := (reports_position (place ++ ".end") r.stop (distinct_getD (k := "end") hd)).down (s := .stop) rfl
    refine (hstart.append hstop (precedes_of_down .start_stop)).of_iff fun a c => ⟨?_, fun hb => ?_⟩
    · rintro (⟨b, rfl, hb⟩ | ⟨b, rfl, hb⟩)
      · exact .start ((under_iff hk).2 rfl) hb
      · exact .stop ((under_iff hk).2 rfl) hb
    · cases hb with
      | notObject hno => cases hno
      | start hx hb => exact .inl ⟨_, rfl, (under_iff hk).1 hx ▸ hb⟩
      | stop hx hb => exact .inr ⟨_, rfl, (under_iff hk).1 hx ▸ hb⟩

theorem reports_token (r : Load.SpanReading) (hd : d.Distinct) :
    Reports place (Load.token r place d).2 (BadToken d) := by
  unfold Load.token
  split
  · rename_i hno
    refine (Reports.here _ (.notObject d.typeName)).of_iff fun a c => ⟨?_, fun hb => ?_⟩
    · rintro ⟨rfl, rfl⟩
      exact .notObject hno
    · cases hb with
      | notObject => exact ⟨rfl, rfl⟩
      | _ => cases hno
  · rename_i es hes
    obtain rfl := eq_mapping_of_entries?_eq_some hes
    obtain ⟨hk, he⟩ := Datum.distinct_mapping.1 hd
    simp only
    split
    · rename_i x hx
      have hm := Datum.mem_of_find? hx
      refine ((reports_span (place ++ ".loc") r (he _ hm)).down (s := .loc) rfl).of_iff
        fun a c => ⟨?_, fun hb => ?_⟩
      · rintro ⟨b, rfl, hb⟩
        exact .loc hm hb
      · cases hb with
        | notObject hno => cases hno
        | noLocation hno => exact absurd hm (hno x)
        | loc hy hb => exact ⟨_, rfl, Datum.eq_of_mem_of_mem hk hy hm ▸ hb⟩
    · rename_i hx
      have hno := Datum.find?_eq_none_iff.1 hx
      refine (Reports.here _ .noLocation).of_iff fun a c => ⟨?_, fun hb => ?_⟩
      · rintro ⟨rfl, rfl⟩
        exact .noLocation hno
      · cases hb with
        | notObject hno => cases hno
        | noLocation => exact ⟨rfl, rfl⟩
        | loc hm _ => exact absurd hm (hno _)

end Parts

/-! ## Items -/

/-- What is wrong with the items of a list, which are counted from a number on. -/
def InItems (P : Datum → List Segment → Complaint → Prop) (i : Nat) (items : List Datum) (a : List Segment)
    (c : Complaint) : Prop :=
  ∃ j x, items[j]? = some x ∧ Down (.item (i + j)) (P x) a c

section Items

variable {P : Datum → List Segment → Complaint → Prop} {place : String} {i : Nat} {d : Datum} {rest : List Datum}

theorem inItems_cons_iff {a : List Segment} {c : Complaint} :
    InItems P i (d :: rest) a c ↔ Down (.item i) (P d) a c ∨ InItems P (i + 1) rest a c := by
  constructor
  · rintro ⟨j, x, hx, hb⟩
    cases j with
    | zero =>
      cases hx
      exact .inl hb
    | succ j => exact .inr ⟨j, x, by simpa using hx, by rwa [show i + 1 + j = i + (j + 1) by omega]⟩
  · rintro (hb | ⟨j, x, hx, hb⟩)
    · exact ⟨0, d, rfl, hb⟩
    · exact ⟨j + 1, x, by simpa using hx, by rwa [show i + (j + 1) = i + 1 + j by omega]⟩

theorem Reports.cons_item {place' : String} {fs gs : List Fault} (hf : Reports place' fs (P d))
    (hp : place' = place ++ (Segment.item i).text) (hg : Reports place gs (InItems P (i + 1) rest)) :
    Reports place (fs ++ gs) (InItems P i (d :: rest)) := by
  refine ((hf.down hp).append hg ?_).of_iff fun a c => inItems_cons_iff.symm
  rintro a c b c' ha ⟨j, x, -, hb⟩
  exact precedes_of_down (.item (by omega)) _ _ _ _ ha hb

theorem text_item (place : String) (i : Nat) :
    place ++ "[" ++ toString i ++ "]" = place ++ (Segment.item i).text := by
  simp [Segment.text, String.append_assoc]

theorem reports_tokenItems (rs : Load.Readings) : ∀ (items : List Datum) (i : Nat), (∀ x ∈ items, x.Distinct) →
    Reports "$.tokens" (((items.zipIdx i).map fun (d, i) =>
      Load.token (rs.token i) ("$.tokens[" ++ toString i ++ "]") d).flatMap Prod.snd) (InItems BadToken i items)
  | [], _, _ => .none fun a c ⟨_, _, hx, _⟩ => by cases hx
  | d :: rest, i, hd =>
    (reports_token _ (rs.token i) (hd d List.mem_cons_self)).cons_item (text_item "$.tokens" i)
      (reports_tokenItems rs rest (i + 1) fun x hx => hd x (List.mem_cons_of_mem d hx))

end Items

/-- What is wrong with the tokens of a root. -/
def BadTokens (d : Datum) (a : List Segment) (c : Complaint) : Prop :=
  match d with
  | .list items => InItems BadToken 0 items a c
  | d => Here (.notArray d.typeName) a c

theorem reports_tokens (rs : Load.Readings) {d : Datum} (hd : d.Distinct) :
    Reports "$.tokens" (Load.tokens rs d).2 (BadTokens d) := by
  cases d with
  | list items => exact reports_tokenItems rs items 0 (Datum.distinct_list.1 hd)
  | _ => exact .here _ (.notArray _)

/-! ## Values -/

/-- Further reading adds the defects that are described. -/
def Load.Progress.Adds (place : String) (p p' : Load.Progress) (P : List Segment → Complaint → Prop) : Prop :=
  ∃ fs, p'.faults = p.faults ++ fs ∧ Reports place fs P

namespace Load.Progress.Adds

variable {place place' : String} {p p' p'' : Progress} {P Q : List Segment → Complaint → Prop}

theorem none (he : p'.faults = p.faults) (hP : ∀ a c, ¬ P a c) : Adds place p p' P :=
  ⟨[], by rw [he, List.append_nil], .none hP⟩

theorem of_iff (hf : Adds place p p' P) (hPQ : ∀ a c, P a c ↔ Q a c) : Adds place p p' Q := by
  obtain ⟨fs, he, hf⟩ := hf
  exact ⟨fs, he, hf.of_iff hPQ⟩

theorem down {s : Segment} (hf : Adds place' p p' P) (hp : place' = place ++ s.text) :
    Adds place p p' (Down s P) := by
  obtain ⟨fs, he, hf⟩ := hf
  exact ⟨fs, he, hf.down hp⟩

theorem trans (hf : Adds place p p' P) (hg : Adds place p' p'' Q)
    (hord : ∀ a c b c', P a c → Q b c' → Precedes a b) :
    Adds place p p'' fun a c => P a c ∨ Q a c := by
  obtain ⟨fs, he, hf⟩ := hf
  obtain ⟨gs, he', hg⟩ := hg
  exact ⟨fs ++ gs, by rw [he', he, List.append_assoc], hf.append hg hord⟩

end Load.Progress.Adds

section Values

open Load Load.Progress

variable (rs : Readings) (place : String) (p : Progress) {es : List (String × Datum)}

/-- Plain data are a map just if they come from a mapping. -/
theorem plain_eq_map {h : Heap} {d : Datum} : (∃ m, (plain h d).1 = .map m) ↔ ∃ es, d = .mapping es := by
  have hs : ∀ d m, scalar d ≠ .map m := by
    intro d m
    unfold scalar
    split <;> try simp
    split <;> simp
  cases d with
  | mapping es => exact ⟨fun _ => ⟨es, rfl⟩, fun _ => ⟨_, rfl⟩⟩
  | list items => exact ⟨fun ⟨m, hm⟩ => by simp [plain] at hm, fun ⟨es, he⟩ => by cases he⟩
  | _ =>
    refine ⟨fun ⟨m, hm⟩ => ?_, fun ⟨es, he⟩ => by cases he⟩
    simp only [plain] at hm
    exact absurd hm (hs _ m)

/-- What is wrong with the remarks of a node. -/
def BadExtra (es : List (String × Datum)) (a : List Segment) (c : Complaint) : Prop :=
  ∃ x, ("extra", x) ∈ es ∧ x ≠ .null ∧ x.entries? = none ∧ Here (.notObject x.typeName) a c

theorem adds_remarks (hk : (es.map Prod.fst).Nodup) :
    Adds place p (remarks place es p).2 (Down .extra (BadExtra es)) := by
  unfold remarks
  split
  · rename_i hx
    refine .none rfl ?_
    rintro a c ⟨b, -, x, hm, -⟩
    exact Datum.find?_eq_none_iff.1 hx x hm
  · rename_i hx
    refine .none rfl ?_
    rintro a c ⟨b, -, x, hm, hn, -⟩
    exact hn (Datum.eq_of_mem_of_mem hk hm (Datum.mem_of_find? hx))
  · rename_i d hn hx
    have hm := Datum.mem_of_find? hx
    split
    · rename_i m h hp
      obtain ⟨fs, rfl⟩ := plain_eq_map.1 ⟨m, congrArg Prod.fst hp⟩
      refine .none rfl ?_
      rintro a c ⟨b, -, x, hm', -, hd, -⟩
      obtain rfl := Datum.eq_of_mem_of_mem hk hm hm'
      cases hd
    · rename_i v h hv hp
      have hd : d.entries? = none := by
        by_contra hd
        obtain ⟨m, hmap⟩ := plain_eq_map.2 (eq_mapping_of_entries? hd)
        exact hv m (by rw [← hmap, hp])
      refine ⟨_, rfl, ((Reports.here _ (.notObject d.typeName)).of_iff fun a c => ⟨fun h => ⟨d, hm, hn, hd, h⟩, ?_⟩).down
        rfl⟩
      rintro ⟨x, hm', -, -, h⟩
      exact Datum.eq_of_mem_of_mem hk hm hm' ▸ h

/-- What is wrong with the location of a node. -/
def BadLoc (es : List (String × Datum)) (a : List Segment) (c : Complaint) : Prop :=
  ∃ x, ("loc", x) ∈ es ∧ x ≠ .null ∧ BadLocation x a c

theorem adds_location (hd : (Datum.mapping es).Distinct) :
    Adds place p (location rs place es p).2 (Down .loc (BadLoc es)) := by
  obtain ⟨hk, he⟩ := Datum.distinct_mapping.1 hd
  unfold location
  split
  · rename_i hx
    refine .none rfl ?_
    rintro a c ⟨b, -, x, hm, -⟩
    exact Datum.find?_eq_none_iff.1 hx x hm
  · rename_i hx
    refine .none rfl ?_
    rintro a c ⟨b, -, x, hm, hn, -⟩
    exact hn (Datum.eq_of_mem_of_mem hk hm (Datum.mem_of_find? hx))
  · rename_i d hn hx
    have hm := Datum.mem_of_find? hx
    have hf := reports_span (place ++ ".loc") (rs.node ⟨p.heap.locations.size⟩) (he _ hm)
    have hbad : ∀ a c, BadLocation d a c ↔ BadLoc es a c := by
      refine fun a c => ⟨fun hb => ⟨d, hm, hn, hb⟩, ?_⟩
      rintro ⟨x, hm', -, hb⟩
      exact Datum.eq_of_mem_of_mem hk hm' hm ▸ hb
    simp only
    split
    · exact ⟨_, rfl, (hf.of_iff hbad).down rfl⟩
    · exact ⟨_, rfl, (hf.of_iff hbad).down rfl⟩

theorem badNode_iff {a : List Segment} {c : Complaint} :
    BadNode es a c ↔ Down .extra (BadExtra es) a c ∨ Down .loc (BadLoc es) a c := by
  constructor
  · intro hb
    cases hb with
    | extra hx hn hd => exact .inl ⟨_, rfl, _, hx, hn, hd, rfl, rfl⟩
    | loc hx hn hb => exact .inr ⟨_, rfl, _, hx, hn, hb⟩
  · rintro (⟨_, rfl, x, hx, hn, hd, rfl, rfl⟩ | ⟨_, rfl, x, hx, hn, hb⟩)
    · exact .extra hx hn hd
    · exact .loc hx hn hb

/-- What is wrong with the fields of a node, which are counted from a number on. -/
def InFields (i : Nat) (es : List (String × Datum)) (a : List Segment) (c : Complaint) : Prop :=
  ∃ j k x, es[j]? = some (k, x) ∧ k ∉ skippedKeys ∧ Down (.field (i + j) k) (BadPart x) a c

theorem inFields_cons_iff {i : Nat} {k : String} {d : Datum} {a : List Segment} {c : Complaint} :
    InFields i ((k, d) :: es) a c ↔
      k ∉ skippedKeys ∧ Down (.field i k) (BadPart d) a c ∨ InFields (i + 1) es a c := by
  constructor
  · rintro ⟨j, l, x, hx, hk, hb⟩
    cases j with
    | zero =>
      cases hx
      exact .inl ⟨hk, hb⟩
    | succ j => exact .inr ⟨j, l, x, by simpa using hx, hk, by rwa [show i + 1 + j = i + (j + 1) by omega]⟩
  · rintro (⟨hk, hb⟩ | ⟨j, l, x, hx, hk, hb⟩)
    · exact ⟨0, k, d, rfl, hk, hb⟩
    · exact ⟨j + 1, l, x, by simpa using hx, hk, by rwa [show i + (j + 1) = i + 1 + j by omega]⟩

/-- With distinct keys, the tag of a mapping is the type that it has. -/
theorem tag?_eq_some_iff {tag : String} (hk : (es.map Prod.fst).Nodup) : tag? es = some tag ↔ Typed es tag := by
  unfold tag?
  split
  · rename_i t ht
    have hm := Datum.mem_of_find? ht
    constructor
    · intro h
      split at h
      · cases h
      · cases h
        exact ⟨hm, by assumption⟩
    · rintro ⟨hm', hne⟩
      cases Datum.eq_of_mem_of_mem hk hm hm'
      rw [if_neg hne]
  · rename_i hno
    constructor
    · intro h
      cases h
    · rintro ⟨hm, -⟩
      exact absurd ((Datum.find?_eq_some_iff hk).2 hm) (hno tag)

/-- What is wrong with a node is what is wrong with its fields or with itself. -/
theorem badPart_iff {tag : String} {a : List Segment} {c : Complaint} (hk : (es.map Prod.fst).Nodup)
    (ht : Typed es tag) : BadPart (.mapping es) a c ↔
      Down (.tag tag) (fun a c => InFields 0 es a c ∨ BadNode es a c) a c := by
  have huniq : ∀ {t}, Typed es t → t = tag := fun ht' => by
    cases Datum.eq_of_mem_of_mem hk ht'.1 ht.1
    rfl
  constructor
  · intro hb
    cases hb with
    | field ht' hx hs hb => exact ⟨_, by rw [huniq ht'], .inl ⟨_, _, _, hx, hs, _, by rw [Nat.zero_add], hb⟩⟩
    | node ht' hb => exact ⟨_, by rw [huniq ht'], .inr hb⟩
  · rintro ⟨_, rfl, ⟨j, k, x, hx, hs, _, rfl, hb⟩ | hb⟩
    · rw [Nat.zero_add]
      exact .field ht hx hs hb
    · exact .node ht hb

/-- Every field of a node is before what the node says of itself. -/
theorem precedes_inFields_badNode {i : Nat} (a : List Segment) (c : Complaint) (b : List Segment) (c' : Complaint)
    (ha : InFields i es a c) (hb : BadNode es b c') : Precedes a b := by
  obtain ⟨j, k, x, -, -, ha⟩ := ha
  rcases badNode_iff.1 hb with hb | hb
  · exact precedes_of_down .field_extra _ _ _ _ ha hb
  · exact precedes_of_down .field_loc _ _ _ _ ha hb

mutual

/-- Reading a datum adds what is wrong with it. -/
theorem adds_value (rs : Readings) (place : String) (p : Progress) : ∀ d : Datum, d.Distinct →
    Adds place p (value rs place p d).2 (BadPart d)
  | .list items, hd => by
    refine (adds_valueItems rs place 0 p items (Datum.distinct_list.1 hd)).of_iff fun a c => ⟨?_, fun hb => ?_⟩
    · rintro ⟨j, x, hx, b, rfl, hb⟩
      rw [Nat.zero_add]
      exact .item hx hb
    · cases hb with
      | item hx hb => exact ⟨_, _, hx, _, by rw [Nat.zero_add], hb⟩
  | .mapping entries, hd => by
    obtain ⟨hk, he⟩ := Datum.distinct_mapping.1 hd
    unfold value
    split
    · rename_i tag ht
      have htyped := (tag?_eq_some_iff hk).1 ht
      have hplace : place ++ "(" ++ tag ++ ")" = place ++ (Segment.tag tag).text := by
        simp [Segment.text, String.append_assoc]
      have hfields := adds_valueFields rs (place ++ "(" ++ tag ++ ")") p 0 entries he
      have hself := (adds_remarks (place ++ "(" ++ tag ++ ")") (valueFields rs (place ++ "(" ++ tag ++ ")") p entries).2
        hk).trans (adds_location rs _ _ hd) (precedes_of_down .extra_loc)
      have hall := hfields.trans (hself.of_iff fun a c => badNode_iff.symm) precedes_inFields_badNode
      exact (hall.down hplace).of_iff fun a c => (badPart_iff hk htyped).symm
    · rename_i ht
      refine .none rfl fun a c hb => ?_
      cases hb with
      | field ht' => simp [(tag?_eq_some_iff hk).2 ht'] at ht
      | node ht' => simp [(tag?_eq_some_iff hk).2 ht'] at ht
  | .null, _ | .bool _, _ | .unsigned _, _ | .signed _, _ | .float _, _ | .str _, _ => by
    refine .none (by simp only [value]) fun a c hb => ?_
    cases hb

theorem adds_valueItems (rs : Readings) (place : String) (i : Nat) (p : Progress) : ∀ items : List Datum,
    (∀ x ∈ items, x.Distinct) → Adds place p (valueItems rs place i p items).2 (InItems BadPart i items)
  | [], _ => .none rfl fun a c ⟨_, _, hx, _⟩ => by cases hx
  | d :: rest, hd => by
    obtain ⟨fs, he, hf⟩ := adds_value rs (place ++ "[" ++ toString i ++ "]") p d (hd d List.mem_cons_self)
    obtain ⟨gs, he', hg⟩ := adds_valueItems rs place (i + 1) (value rs (place ++ "[" ++ toString i ++ "]") p d).2 rest
      fun x hx => hd x (List.mem_cons_of_mem d hx)
    refine ⟨fs ++ gs, ?_, hf.cons_item (text_item place i) hg⟩
    rw [← List.append_assoc, ← he]
    exact he'

theorem adds_valueFields (rs : Readings) (place : String) (p : Progress) (i : Nat) : ∀ entries : List (String × Datum),
    (∀ e ∈ entries, e.2.Distinct) → Adds place p (valueFields rs place p entries).2 (InFields i entries)
  | [], _ => .none rfl fun a c ⟨_, _, _, hx, _⟩ => by cases hx
  | (k, d) :: rest, hd => by
    have hrest : ∀ e ∈ rest, e.2.Distinct := fun e he => hd e (List.mem_cons_of_mem _ he)
    unfold valueFields
    split
    · rename_i hk
      refine (adds_valueFields rs place p (i + 1) rest hrest).of_iff fun a c => ?_
      rw [inFields_cons_iff, or_iff_right fun h => h.1 (List.contains_iff_mem.1 hk)]
    · rename_i hk
      have hplace : place ++ "." ++ k = place ++ (Segment.field i k).text := String.append_assoc
      have hhead := (adds_value rs (place ++ "." ++ k) p d (hd (k, d) List.mem_cons_self)).down hplace
      have htail := adds_valueFields rs place (value rs (place ++ "." ++ k) p d).2 (i + 1) rest hrest
      refine (hhead.trans htail ?_).of_iff fun a c => ?_
      · rintro a c b c' ha ⟨j, l, x, -, -, hb⟩
        exact precedes_of_down (.field (by omega)) _ _ _ _ ha hb
      · rw [inFields_cons_iff, and_iff_right fun h => hk (List.contains_iff_mem.2 h)]

end

end Values

/-! ## Documents -/

section Documents

variable {rs : Load.Readings} {h : Heap} {es : List (String × Datum)}

/-- What is wrong with the tokens of a root, if it has any. -/
def BadRootTokens (es : List (String × Datum)) (a : List Segment) (c : Complaint) : Prop :=
  ∃ d, ("tokens", d) ∈ es ∧ BadTokens d a c

/-- The tokens of a root and their defects. -/
def rootTokens (rs : Load.Readings) (es : List (String × Datum)) : Option (List (Option Token)) × List Fault :=
  match Datum.find? es "tokens" with
  | some t => Load.tokens rs t
  | none => (none, [])

theorem reports_rootTokens (hd : (Datum.mapping es).Distinct) :
    Reports "$" (rootTokens rs es).2 (Down .tokens (BadRootTokens es)) := by
  obtain ⟨hk, he⟩ := Datum.distinct_mapping.1 hd
  unfold rootTokens
  split
  · rename_i d hx
    have hm := Datum.mem_of_find? hx
    refine ((reports_tokens rs (he _ hm)).of_iff fun a c => ⟨fun hb => ⟨d, hm, hb⟩, ?_⟩).down rfl
    rintro ⟨x, hm', hb⟩
    exact Datum.eq_of_mem_of_mem hk hm' hm ▸ hb
  · rename_i hx
    refine .none ?_
    rintro a c ⟨b, -, x, hm, -⟩
    exact Datum.find?_eq_none_iff.1 hx x hm

theorem violates_iff {a : List Segment} {c : Complaint} : Violates es a c ↔
    (Down .tokens (BadRootTokens es) a c ∨ Down .tree (BadPart (.mapping es)) a c) ∨
      (∀ tag, ¬ Typed es tag) ∧ Down .whole (Here .untyped) a c := by
  constructor
  · intro hv
    cases hv with
    | @notArray d hm hl =>
      have hb : BadTokens d [] (.notArray d.typeName) := by
        cases d with
        | list items => exact absurd rfl (hl items)
        | _ => exact ⟨rfl, rfl⟩
      exact .inl (.inl ⟨[], rfl, d, hm, hb⟩)
    | @token items i x a c hm hx hb =>
      exact .inl (.inl ⟨_, rfl, _, hm, i, x, hx, a, by rw [Nat.zero_add], hb⟩)
    | tree hb => exact .inl (.inr ⟨_, rfl, hb⟩)
    | untyped ht => exact .inr ⟨ht, [], rfl, rfl, rfl⟩
  · rintro ((⟨b, rfl, d, hm, hb⟩ | ⟨b, rfl, hb⟩) | ⟨ht, b, rfl, rfl, rfl⟩)
    · cases d with
      | list items =>
        obtain ⟨i, x, hx, a, rfl, hb⟩ := hb
        rw [Nat.zero_add]
        exact .token hm hx hb
      | _ =>
        obtain ⟨rfl, rfl⟩ := hb
        exact .notArray hm (by simp)
    · exact .tree hb
    · exact .untyped ht

/-- What reading a mapping reports before its type is looked at. -/
theorem reports_value (rs : Load.Readings) (h : Heap) (hd : (Datum.mapping es).Distinct) :
    Reports "$" (Load.value rs "$" ⟨h, (rootTokens rs es).2⟩ (.mapping es)).2.faults fun a c =>
      Down .tokens (BadRootTokens es) a c ∨ Down .tree (BadPart (.mapping es)) a c := by
  obtain ⟨fs, he, hf⟩ := adds_value rs "$" ⟨h, (rootTokens rs es).2⟩ (.mapping es) hd
  rw [he]
  exact (reports_rootTokens hd).append (hf.down (s := .tree) rfl) (precedes_of_down .tokens_tree)

/-- A mapping is read as a node just if it has a type. -/
theorem value_mapping (rs : Load.Readings) (place : String) (p : Load.Progress) (es : List (String × Datum)) :
    (∀ tag, Load.tag? es = some tag → ∃ n, (Load.value rs place p (.mapping es)).1 = .node n) ∧
    (Load.tag? es = none → ∃ m, (Load.value rs place p (.mapping es)).1 = .map m) := by
  unfold Load.value
  cases Load.tag? es with
  | none => exact ⟨fun _ h => (by cases h), fun _ => ⟨_, rfl⟩⟩
  | some tag => exact ⟨fun _ _ => ⟨_, rfl⟩, fun h => (by cases h)⟩

/-- How reading ends: with a tree, if there is a node and nothing has been reported. -/
def conclude (tokens : Option (List (Option Token))) (v : Value) (p : Load.Progress) :
    Except LoadError (NodeId × Heap) :=
  match v, p.faults with
  | .node n, [] =>
    match tokens with
    | some ts => .ok (n, (p.heap.attach v ts).1)
    | none => .ok (n, p.heap)
  | .node _, faults => .error (.faulty faults)
  | _, faults => .error (.faulty (faults ++ [.untypedRoot]))

theorem load_eq : load rs h (.mapping es) =
    conclude (rootTokens rs es).1 (Load.value rs "$" ⟨h, (rootTokens rs es).2⟩ (Datum.mapping es).settled).1
      (Load.value rs "$" ⟨h, (rootTokens rs es).2⟩ (Datum.mapping es).settled).2 := rfl

/-- A mapping that is read as a node gives a tree if nothing has been reported. -/
theorem load_of_node {n : NodeId} {p : Load.Progress}
    (hv : Load.value rs "$" ⟨h, (rootTokens rs es).2⟩ (Datum.mapping es).settled = (.node n, p)) :
    (p.faults = [] → ∃ h', load rs h (.mapping es) = .ok (n, h')) ∧
      (p.faults ≠ [] → load rs h (.mapping es) = .error (.faulty p.faults)) := by
  rw [load_eq, hv]
  constructor
  · intro hf
    simp only [conclude, hf]
    split <;> exact ⟨_, rfl⟩
  · intro hf
    unfold conclude
    split
    · rename_i heq
      exact absurd heq hf
    · rename_i heq _
      cases heq
      rfl
    · rename_i hno _
      exact absurd rfl (hno n)

theorem load_of_map {m : MapId} {p : Load.Progress}
    (hv : Load.value rs "$" ⟨h, (rootTokens rs es).2⟩ (Datum.mapping es).settled = (.map m, p)) :
    load rs h (.mapping es) = .error (.faulty (p.faults ++ [.untypedRoot])) := by
  rw [load_eq, hv]
  rfl

/-- Reading a mapping gives a tree or reports all that is violated. -/
theorem load_mapping (rs : Load.Readings) (h : Heap) (hd : (Datum.mapping es).Distinct) :
    ∃ fs, Reports "$" fs (Violates es) ∧
    (fs = [] → ∃ n h', load rs h (.mapping es) = .ok (n, h')) ∧
    (fs ≠ [] → load rs h (.mapping es) = .error (.faulty fs)) := by
  have hk := (Datum.distinct_mapping.1 hd).1
  have hf := reports_value rs h hd
  obtain ⟨hnode, hmap⟩ := value_mapping rs "$" ⟨h, (rootTokens rs es).2⟩ es
  obtain ⟨v, p, hv⟩ : ∃ v p, Load.value rs "$" ⟨h, (rootTokens rs es).2⟩ (.mapping es) = (v, p) := ⟨_, _, rfl⟩
  rw [hv] at hf hnode hmap
  rw [← hd.settled_eq] at hv
  cases ht : Load.tag? es with
  | some tag =>
    obtain ⟨n, rfl⟩ := hnode tag ht
    have htyped := (tag?_eq_some_iff hk).1 ht
    obtain ⟨hok, herr⟩ := load_of_node hv
    refine ⟨_, hf.of_iff fun a c => ?_, fun he => ⟨n, hok he⟩, herr⟩
    exact (violates_iff.trans (or_iff_left fun hno => hno.1 tag htyped)).symm
  | none =>
    obtain ⟨m, rfl⟩ := hmap ht
    have hno : ∀ tag, ¬ Typed es tag := fun tag htyped => by simp [(tag?_eq_some_iff hk).2 htyped] at ht
    have hwhole : Reports "$" [.untypedRoot] (Down .whole (Here .untyped)) := (Reports.here "$" .untyped).down rfl
    have hall := hf.append hwhole fun a c b c' ha hb => by
      rcases ha with ha | ha
      · exact precedes_of_down .tokens_whole _ _ _ _ ha hb
      · exact precedes_of_down .tree_whole _ _ _ _ ha hb
    refine ⟨_, hall.of_iff fun a c => ?_, fun he => ?_, fun _ => load_of_map hv⟩
    · rw [violates_iff, and_iff_right hno]
    · simp at he

/-- A datum that is no mapping is refused with one message. A mapping with distinct keys gives a tree just if it is well
formed; otherwise the error holds what is violated in it, each violation once and in the order of the addresses: those
of the tokens first, then those of the tree, then that of the root as a whole. Only the coordinates of one position come
in the order in which they happen to be read. -/
theorem load_exact (rs : Load.Readings) (h : Heap) {d : Datum} (hd : d.Distinct) :
    ((∀ es, d ≠ .mapping es) → load rs h d = .error (.rootNotObject d.typeName)) ∧
    ∀ es, d = .mapping es →
      ((∃ n h', load rs h d = .ok (n, h')) ↔ WellFormed es) ∧
      ∀ e, load rs h d = .error e → ∃ vs : List Violation, e = .faulty (vs.map (Violation.fault "$")) ∧ vs ≠ [] ∧
        vs.Nodup ∧ vs.Pairwise Violation.Before ∧ ∀ v, v ∈ vs ↔ Violates es v.address v.complaint := by
  refine ⟨fun hno => ?_, ?_⟩
  · cases d with
    | mapping es => exact absurd rfl (hno es)
    | _ => rfl
  · rintro es rfl
    obtain ⟨fs, ⟨vs, rfl, hord, hmem⟩, hok, herr⟩ := load_mapping rs h hd
    have hnil : vs = [] ↔ WellFormed es := by
      rw [wellFormed_iff hd, List.eq_nil_iff_forall_not_mem]
      exact ⟨fun hno a c hv => hno _ ((hmem a c).2 hv), fun hno v hv => hno _ _ ((hmem _ _).1 hv)⟩
    refine ⟨⟨fun ⟨n, h', hl⟩ => hnil.1 ?_, fun hw => hok (by rw [hnil.2 hw]; rfl)⟩, fun e he => ?_⟩
    · by_contra hne
      rw [herr (by simpa using hne)] at hl
      cases hl
    · have hne : vs ≠ [] := fun hvs => by
        obtain ⟨n, h', hl⟩ := hok (by rw [hvs]; rfl)
        rw [hl] at he
        cases he
      have hnodup : vs.Nodup := hord.imp fun h => h.ne
      refine ⟨vs, ?_, hne, hnodup, hord, fun v => hmem _ _⟩
      rw [herr (by simpa using hne)] at he
      exact (Except.error.inj he).symm

/-- A document with defects of every kind but the root's: tokens that are no object or have no location, remarks that
are no object, and coordinates that are not whole, two of them in one position. -/
def crooked : Datum := .mapping
  [("type", .str "File"), ("loc", .null),
    ("body", .list [.null, .mapping [("type", .str "Id"), ("extra", .bool true), ("range", .mapping [("type", .str "")]),
      ("loc", .mapping [("start", .mapping [("line", .str "x"), ("column", .str "y")]),
        ("end", .mapping [("line", .float ⟨0x3ff8000000000000⟩)])])]]),
    ("tokens", .list [.mapping [("value", .null)], .bool false, .mapping [("loc", .mapping [("end", .mapping [])])]])]

/-- What is wrong with it, the two coordinates of one position in an order. -/
def crookedFaults (first second : Coordinate) : List Fault :=
  [.noLocation "$.tokens[0]", .notObject "$.tokens[1]" "bool", .notObject "$.tokens[2].loc.start" "<nil>",
    .notObject "$(File).body[1](Id).extra" "bool",
    .notInteger ("$(File).body[1](Id).loc.start." ++ first.key) "string",
    .notInteger ("$(File).body[1](Id).loc.start." ++ second.key) "string",
    .notInteger "$(File).body[1](Id).loc.end.line" "float64"]

/-- The start of every span is read from its line on, the end in the order of the keys. -/
def lineFirst : Load.Readings :=
  ⟨fun _ => ⟨⟨[.line, .column, .index], by decide⟩, .byKey⟩, fun _ => ⟨⟨[.line, .column, .index], by decide⟩, .byKey⟩⟩

theorem distinct_crooked : crooked.Distinct := by
  simp [crooked, Datum.Distinct.scalar]

theorem load_exact_crooked : crooked.Distinct ∧
    load .byKey {} crooked = .error (.faulty (crookedFaults .column .line)) ∧
    load lineFirst {} crooked = .error (.faulty (crookedFaults .line .column)) ∧
    ∃ (es : List (String × Datum)) (vs : List Violation), crooked = .mapping es ∧
      vs.map (Violation.fault "$") = crookedFaults .line .column ∧ vs.Pairwise Violation.Before ∧
      ∀ v, v ∈ vs ↔ Violates es v.address v.complaint := by
  have hload : load lineFirst {} crooked = .error (.faulty (crookedFaults .line .column)) := by rfl
  obtain ⟨-, herr⟩ := (load_exact lineFirst {} distinct_crooked).2 _ rfl
  obtain ⟨vs, he, -, -, hord, hmem⟩ := herr _ hload
  exact ⟨distinct_crooked, by rfl, hload, _, vs, rfl, (LoadError.faulty.inj he).symm, hord, hmem⟩

end Documents

end Bracketing.Document
