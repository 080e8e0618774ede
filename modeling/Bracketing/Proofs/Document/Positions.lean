import Bracketing.Proofs.Document.Sound
import Bracketing.Proofs.Source.Order

/-!
# Positions as they are written

A document writes the lines and columns of its positions as integers, each a signed or an unsigned word. A loaded
position has signed words, and a comparison is the wrapped difference of two of them. The order of the integers is kept
as long as the difference that decides fits a signed word, and for integers that are signed words no longer than that.

* **Words** (`toInt_wordAt`, `toInt_compare_of_writes`): a comparison of loaded positions in terms of what is written.
* **Spans** (`Locates`, `locates_value`): every node has the span that its mapping gives it.
* **Tokens** (`tokens_spec`): every token has the span that its own mapping gives it.
* **Documents** (`load_orders`): which positions of a loaded tree compare as they are written, and when comparing them is
  a total preorder.
-/

namespace Bracketing.Document

open Bracketing.Source Bracketing.Tree Bracketing.Tree.Heap

namespace Datum

/-! ## What a position says -/

/-- The integer that a datum writes. -/
def integer? : Datum → Option Int
  | .unsigned n => some n.toNat
  | .signed i => some i.toInt
  | _ => none

/-- The integer that is written under a key; zero if there is none. -/
def integerAt (es : List (String × Datum)) (key : String) : Option Int :=
  match find? es key with
  | none => some 0
  | some x => x.integer?

/-- The datum is a position whose line and column are written as integers. -/
def Writes (d : Datum) (line column : Int) : Prop :=
  ∃ es, d = .mapping es ∧ integerAt es "line" = some line ∧ integerAt es "column" = some column

/-- The word under a key; zero if there is none. -/
def wordAt (es : List (String × Datum)) (key : String) : Int64 := ((find? es key).bind toWord?).getD 0

/-- The position that a datum stands for. -/
def position (d : Datum) : Position :=
  match d.entries? with
  | none => .none
  | some es => ⟨wordAt es "line", wordAt es "column", wordAt es "index"⟩

/-- The span that a datum stands for, if it is a mapping. -/
def span? (d : Datum) : Option Span :=
  d.entries?.map fun es => ⟨((find? es "start").getD .null).position, ((find? es "end").getD .null).position⟩

theorem le_of_integerAt {es : List (String × Datum)} {key : String} {x : Int} (hx : integerAt es key = some x) :
    -2 ^ 63 ≤ x := by
  unfold integerAt at hx
  split at hx
  · obtain rfl := Option.some.inj hx
    omega
  · rename_i d _
    cases d with
    | unsigned n =>
      obtain rfl := Option.some.inj hx
      omega
    | signed i =>
      obtain rfl := Option.some.inj hx
      have := i.le_toInt
      omega
    | _ => cases hx

theorem Writes.le {d : Datum} {l c : Int} (hd : d.Writes l c) : -2 ^ 63 ≤ l ∧ -2 ^ 63 ≤ c := by
  obtain ⟨es, -, hl, hc⟩ := hd
  exact ⟨le_of_integerAt hl, le_of_integerAt hc⟩

/-- A written integer is loaded modulo the words. -/
theorem toInt_wordAt {es : List (String × Datum)} {key : String} {x : Int} (hx : integerAt es key = some x) :
    (wordAt es key).toInt = x.bmod (2 ^ 64) := by
  unfold integerAt at hx
  unfold wordAt
  split at hx
  · rename_i hf
    obtain rfl := Option.some.inj hx
    rw [hf]
    rfl
  · rename_i d hf
    rw [hf]
    cases d with
    | unsigned n =>
      obtain rfl := Option.some.inj hx
      exact BitVec.toInt_eq_toNat_bmod n.toBitVec
    | signed i =>
      obtain rfl := Option.some.inj hx
      have := i.le_toInt
      have := i.toInt_lt
      simp only [Option.bind_some, toWord?, Option.getD_some]
      exact (Int.bmod_eq_of_le (by omega) (by omega)).symm
    | _ => cases hx

/-- A comparison of positions is the difference of what is written, modulo the words. -/
theorem toInt_compare_of_writes {d e : Datum} {l c l' c' : Int} (hd : d.Writes l c) (he : e.Writes l' c') :
    (d.position.compare e.position).toInt =
      if (l - l').bmod (2 ^ 64) = 0 then (c - c').bmod (2 ^ 64) else (l - l').bmod (2 ^ 64) := by
  obtain ⟨es, rfl, hl, hc⟩ := hd
  obtain ⟨fs, rfl, hl', hc'⟩ := he
  have hline : (wordAt es "line" - wordAt fs "line").toInt = (l - l').bmod (2 ^ 64) := by
    rw [Int64.toInt_sub, toInt_wordAt hl, toInt_wordAt hl', Int.bmod_sub_bmod, Int.sub_bmod_bmod]
  have hcolumn : (wordAt es "column" - wordAt fs "column").toInt = (c - c').bmod (2 ^ 64) := by
    rw [Int64.toInt_sub, toInt_wordAt hc, toInt_wordAt hc', Int.bmod_sub_bmod, Int.sub_bmod_bmod]
  have hzero : wordAt es "line" - wordAt fs "line" = 0 ↔ (l - l').bmod (2 ^ 64) = 0 := by
    rw [← Int64.toInt_inj, hline, Int64.toInt_zero]
  simp only [position, entries?, Position.compare, ne_eq, ite_not, hzero]
  split
  · exact hcolumn
  · exact hline

theorem compare_sub_zero (x y : Int) : compare (x - y) 0 = compare x y := by
  rcases Int.lt_trichotomy x y with h | h | h
  · rw [Int.compare_eq_lt.2 h, Int.compare_eq_lt]
    omega
  · rw [Int.compare_eq_eq.2 h, Int.compare_eq_eq]
    omega
  · rw [Int.compare_eq_gt.2 h, Int.compare_eq_gt]
    omega

/-- The order of what is written is the sign of the difference that decides. -/
theorem compare_decisive (l c l' c' : Int) :
    compare (Position.decisive l c l' c') 0 = (compare l l').then (compare c c') := by
  unfold Position.decisive
  by_cases hl : l = l'
  · rw [if_pos hl, compare_sub_zero, Int.compare_eq_eq.2 hl, Ordering.eq_then]
  · rw [if_neg hl, compare_sub_zero]
    cases hc : compare l l' with
    | eq => exact absurd (Int.compare_eq_eq.1 hc) hl
    | lt => rfl
    | gt => rfl

/-- A difference that fits a signed word is its own remainder; one of signed words that does not fit changes its sign. -/
theorem compare_bmod_iff {x : Int} (hx : -2 ^ 64 < x) (hx' : x < 2 ^ 64) :
    compare (x.bmod (2 ^ 64)) 0 = compare x 0 ↔ Position.FitsWord x := by
  constructor
  · intro hc
    by_contra hfit
    unfold Position.FitsWord at hfit
    by_cases hneg : x < 0
    · rw [Int.compare_eq_lt.2 hneg, Int.compare_eq_lt, ← Int.add_bmod_right,
        Int.bmod_eq_of_le (by omega) (by omega)] at hc
      omega
    · have hpos : compare x 0 = .gt := Int.compare_eq_gt.2 (by omega)
      rw [hpos, Int.compare_eq_gt, ← Int.sub_bmod_right, Int.bmod_eq_of_le (by omega) (by omega)] at hc
      omega
  · intro hfit
    unfold Position.FitsWord at hfit
    rw [Int.bmod_eq_of_le (by omega) (by omega)]

/-- A comparison is the difference that decides, modulo the words, unless the lines are a whole word apart. -/
theorem toInt_compare_eq_decisive {d e : Datum} {l c l' c' : Int} (hd : d.Writes l c) (he : e.Writes l' c')
    (hl : -2 ^ 64 < l - l') (hl' : l - l' < 2 ^ 64) :
    (d.position.compare e.position).toInt = (Position.decisive l c l' c').bmod (2 ^ 64) := by
  rw [toInt_compare_of_writes hd he, Position.decisive]
  by_cases h : l = l'
  · rw [if_pos h, h, Int.sub_self, if_pos (by rfl)]
  · have hne : (l - l').bmod (2 ^ 64) ≠ 0 := by
      intro h0
      have hdvd := Int.dvd_of_bmod_eq_zero h0
      omega
    rw [if_neg h, if_neg hne]

/-- Positions compare as they are written if the difference that decides fits a signed word. -/
theorem compare_of_fitsWord {d e : Datum} {l c l' c' : Int} (hd : d.Writes l c) (he : e.Writes l' c')
    (hfit : Position.FitsWord (Position.decisive l c l' c')) :
    compare (d.position.compare e.position).toInt 0 = (compare l l').then (compare c c') := by
  have hbounds : -2 ^ 63 ≤ l - l' ∧ l - l' < 2 ^ 63 := by
    by_cases hl : l = l'
    · omega
    · simpa [Position.decisive, hl, Position.FitsWord] using hfit
  have hx : -2 ^ 64 < Position.decisive l c l' c' ∧ Position.decisive l c l' c' < 2 ^ 64 := by
    unfold Position.FitsWord at hfit
    omega
  rw [toInt_compare_eq_decisive hd he (by omega) (by omega), (compare_bmod_iff hx.1 hx.2).2 hfit, compare_decisive]

/-- Positions written as signed words compare as they are written only if the difference that decides fits one. -/
theorem fitsWord_of_compare {d e : Datum} {l c l' c' : Int} (hd : d.Writes l c) (he : e.Writes l' c')
    (hsigned : l < 2 ^ 63 ∧ c < 2 ^ 63 ∧ l' < 2 ^ 63 ∧ c' < 2 ^ 63)
    (hc : compare (d.position.compare e.position).toInt 0 = (compare l l').then (compare c c')) :
    Position.FitsWord (Position.decisive l c l' c') := by
  have hbounds := hd.le
  have hbounds' := he.le
  have hx : -2 ^ 64 < Position.decisive l c l' c' ∧ Position.decisive l c l' c' < 2 ^ 64 := by
    unfold Position.decisive
    split <;> omega
  rw [toInt_compare_eq_decisive hd he (by omega) (by omega), ← compare_decisive] at hc
  exact (compare_bmod_iff hx.1 hx.2).1 hc

/-! ## Settled data -/

theorem toWord?_settled (d : Datum) : d.settled.toWord? = d.toWord? := by
  cases d <;> simp [settled, toWord?]

theorem getD_settled (es : List (String × Datum)) (key : String) :
    (find? (settledMapping es) key).getD .null = ((find? es key).getD .null).settled := by
  rw [find?_settled]
  cases find? es key with
  | none => rfl
  | some x => rfl

theorem wordAt_settled (es : List (String × Datum)) (key : String) :
    wordAt (settledMapping es) key = wordAt es key := by
  unfold wordAt
  rw [find?_settled]
  cases find? es key with
  | none => rfl
  | some x => simp [toWord?_settled]

theorem position_settled (d : Datum) : d.settled.position = d.position := by
  cases d with
  | mapping es => simp [settled_mapping, position, entries?, wordAt_settled]
  | _ => simp [settled, position, entries?]

theorem span?_settled (d : Datum) : d.settled.span? = d.span? := by
  cases d with
  | mapping es => simp [settled_mapping, span?, entries?, getD_settled, position_settled]
  | _ => simp [settled, span?, entries?]

end Datum

/-- The span that a mapping gives to its node. -/
def ownSpan? (es : List (String × Datum)) : Option Span := (Datum.find? es "loc").bind Datum.span?

theorem ownSpan?_settled (es : List (String × Datum)) : ownSpan? (Datum.settledMapping es) = ownSpan? es := by
  unfold ownSpan?
  rw [Datum.find?_settled]
  cases Datum.find? es "loc" with
  | none => rfl
  | some x => exact Datum.span?_settled x

namespace Load

theorem coordinate_fst (place : String) (es : List (String × Datum)) (c : Coordinate) :
    (coordinate place es c).1 = Datum.wordAt es c.key := by
  unfold coordinate Datum.wordAt
  cases Datum.find? es c.key with
  | none => rfl
  | some d => cases hd : d.toWord? <;> simp [hd]

theorem position_fst (r : Reading) (place : String) (d : Datum) : (position r place d).1 = d.position := by
  unfold position Datum.position
  cases d.entries? with
  | none => rfl
  | some es => simp only [coordinate_fst, Coordinate.key]

theorem span_fst (r : SpanReading) (place : String) (d : Datum) : (span r place d).1 = d.span? := by
  unfold span Datum.span?
  cases d.entries? with
  | none => rfl
  | some es => simp only [position_fst, Option.map_some]

end Load

/-! ## The spans of nodes -/

/-- There is a location just if the mapping gives a span, and then it is one of the heap with this span. -/
def SpanAt (h : Heap) (es : List (String × Datum)) : Option LocationId → Prop
  | none => ownSpan? es = none
  | some l => ∃ s, ownSpan? es = some s ∧ h.locations[l.index]? = some { span := s }

theorem SpanAt.grow {h h' : Heap} {es : List (String × Datum)} {o : Option LocationId} (he : GrowsAll h h')
    (hs : SpanAt h es o) : SpanAt h' es o := by
  cases o with
  | none => exact hs
  | some l =>
    obtain ⟨s, hs, hat⟩ := hs
    exact ⟨s, hs, he.getElem?_locations hat⟩

/-- Every node of the value has the span that its mapping in the datum gives it. -/
inductive Locates (h : Heap) : Datum → Value → Prop
  | flat {d : Datum} {v : Value} (hn : ∀ n, v ≠ .node n) (hl : ∀ l, v ≠ .list l) : Locates h d v
  | list {items : List Datum} {l : ListId} (hl : l.index < h.lists.size)
    (hi : ∀ (i : Nat) (x : Datum) (v : Value), items[i]? = some x → (h.list l)[i]? = some v → Locates h x v) :
    Locates h (.list items) (.list l)
  | node {es : List (String × Datum)} {n : NodeId} (hn : n.index < h.nodes.size) (hs : SpanAt h es (h.node n).location)
    (hf : ∀ (k : String) (v : Value) (x : Datum), (k, v) ∈ (h.node n).fields.entries → Datum.find? es k = some x →
      Locates h x v) : Locates h (.mapping es) (.node n)

section Locates

variable {h h' : Heap} {d : Datum} {v : Value}

theorem Locates.grow (he : GrowsAll h h') (hs : Locates h d v) : Locates h' d v := by
  induction hs with
  | flat hn hl => exact .flat hn hl
  | list hl _ ih =>
    have heq := he.list_eq hl
    exact .list (Nat.lt_of_lt_of_le hl he.lists.length_le) fun i x v hx hv => ih i x v hx (by rwa [heq] at hv)
  | node hn hs _ ih =>
    have heq := he.node_eq hn
    exact .node (Nat.lt_of_lt_of_le hn he.size_le) (by rw [heq]; exact hs.grow he) fun k v x hk hx =>
      ih k v x (by rwa [heq] at hk) hx

/-- What locates a settled datum locates the datum. -/
theorem Locates.of_settled (hs : Locates h d.settled v) : Locates h d v := by
  generalize hd : d.settled = d' at hs
  induction hs generalizing d with
  | flat hn hl => exact .flat hn hl
  | list hl _ ih =>
    obtain ⟨items, rfl, rfl⟩ := Datum.eq_list_of_settled hd
    exact .list hl fun i x v hx hv => ih i x.settled v (by simp [hx]) hv rfl
  | node hn hs _ ih =>
    obtain ⟨es, rfl, rfl⟩ := Datum.eq_mapping_of_settled hd
    refine .node hn ?_ fun k v x hk hx => ih k v x.settled hk (by rw [Datum.find?_settled, hx]; rfl) rfl
    cases hloc : (h.node _).location <;> simpa [SpanAt, hloc, ownSpan?_settled] using hs

theorem locates_addList {items : List Datum} {vs : List Value}
    (hi : ∀ (i : Nat) (x : Datum) (v : Value), items[i]? = some x → vs[i]? = some v → Locates h x v) :
    Locates (h.addList vs).2 (.list items) (.list (h.addList vs).1) := by
  have hlist : (h.addList vs).2.list (h.addList vs).1 = vs := by simp [addList, list, Array.getD]
  refine .list (by simp [addList]) fun i x v hx hv => ?_
  rw [hlist] at hv
  exact (hi i x v hx hv).grow (.of_grows (.addList h vs) rfl)

theorem locates_addNode {es : List (String × Datum)} {node : Node} (hs : SpanAt h es node.location)
    (hf : ∀ e ∈ node.fields.entries, ∃ x, Datum.find? es e.1 = some x ∧ Locates h x e.2) :
    Locates (h.addNode node).2 (.mapping es) (.node (h.addNode node).1) := by
  have he : GrowsAll h (h.addNode node).2 := .of_grows (.addNode h node) rfl
  have hnode : (h.addNode node).2.node (h.addNode node).1 = node := by simp [addNode, Heap.node, Array.getD]
  refine .node (by simp [addNode]) (by rw [hnode]; exact hs.grow he) fun k v x hk hx => ?_
  rw [hnode] at hk
  obtain ⟨y, hy, hl⟩ := hf _ hk
  obtain rfl : y = x := Option.some.inj (hy.symm.trans hx)
  exact hl.grow he

theorem locates_scalar (h : Heap) {d : Datum} (hl : ∀ items, d ≠ .list items) (hm : ∀ es, d ≠ .mapping es) :
    Locates h d (Load.scalar d) := by
  cases d with
  | list items => exact absurd rfl (hl items)
  | mapping es => exact absurd rfl (hm es)
  | _ => exact .flat (by simp [Load.scalar, Datum.toDouble?]) (by simp [Load.scalar, Datum.toDouble?])

end Locates

namespace Load

/-- The location that is read for a node has the span of its mapping. -/
theorem spanAt_location (rs : Readings) (place : String) (es : List (String × Datum)) (p : Progress) :
    SpanAt (location rs place es p).2.heap es (location rs place es p).1 := by
  unfold location
  split
  · rename_i hx
    simp [SpanAt, ownSpan?, hx]
  · rename_i hx
    simp [SpanAt, ownSpan?, hx, Datum.span?, Datum.entries?]
  · rename_i d _ hx
    have hspan := span_fst (rs.node ⟨p.heap.locations.size⟩) (place ++ ".loc") d
    simp only
    split
    · rename_i hs
      rw [hs] at hspan
      simp [SpanAt, ownSpan?, hx, ← hspan]
    · rename_i s hs
      rw [hs] at hspan
      exact ⟨s, by simp [ownSpan?, hx, ← hspan], by simp [addLocation]⟩

mutual

/-- Every node of the value of a datum with distinct keys has the span of its mapping. -/
theorem locates_value (rs : Readings) (place : String) (p : Progress) : ∀ d : Datum, d.Distinct →
    Locates (value rs place p d).2.heap d (value rs place p d).1
  | .list items, hd => by
    have hi := locates_valueItems rs place 0 p items (Datum.distinct_list.1 hd)
    exact locates_addList hi
  | .mapping entries, hd => by
    obtain ⟨hk, hentries⟩ := Datum.distinct_mapping.1 hd
    unfold value
    split
    · rename_i tag ht
      obtain ⟨-, hkeys, -, -⟩ := sown_valueFields rs (place ++ "(" ++ tag ++ ")") p entries hentries
      have hf := locates_valueFields rs (place ++ "(" ++ tag ++ ")") p entries hentries
      obtain ⟨fields, p₁, hread⟩ : ∃ fields p₁, valueFields rs (place ++ "(" ++ tag ++ ")") p entries = (fields, p₁) :=
        ⟨_, _, rfl⟩
      rw [hread] at hkeys hf
      simp only [hread]
      -- the remarks and the location come between the fields and the node
      have he := (growsAll_remarks (place ++ "(" ++ tag ++ ")") entries p₁).trans
        (growsAll_location rs (place ++ "(" ++ tag ++ ")") entries _).1
      refine locates_addNode (spanAt_location rs _ entries _) fun e hm => ?_
      rw [Record.entries_ofEntries, putEntries_of_nodup (hkeys ▸ hk.filter _)] at hm
      obtain ⟨x, hx, hs⟩ := hf e hm
      exact ⟨x, (Datum.find?_eq_some_iff hk).2 hx, hs.grow he⟩
    · exact .flat (by simp) (by simp)
  | .null, _ | .bool _, _ | .unsigned _, _ | .signed _, _ | .float _, _ | .str _, _ => by
    simp only [value]
    exact locates_scalar _ (by simp) (by simp)

theorem locates_valueItems (rs : Readings) (place : String) (i : Nat) (p : Progress) : ∀ items : List Datum,
    (∀ x ∈ items, x.Distinct) → ∀ (j : Nat) (x : Datum) (v : Value), items[j]? = some x → (valueItems rs place i p items).1[j]? = some v →
      Locates (valueItems rs place i p items).2.heap x v
  | [], _ => by simp
  | d :: rest, hd => by
    have hrest : ∀ x ∈ rest, x.Distinct := fun x hx => hd x (List.mem_cons_of_mem d hx)
    have hv := locates_value rs (place ++ "[" ++ toString i ++ "]") p d (hd d List.mem_cons_self)
    have hi := locates_valueItems rs place (i + 1) (value rs (place ++ "[" ++ toString i ++ "]") p d).2 rest hrest
    have he := (sown_valueItems rs place (i + 1) (value rs (place ++ "[" ++ toString i ++ "]") p d).2 rest hrest).1
    intro j x v hx hj
    cases j with
    | zero =>
      obtain rfl := Option.some.inj hx
      obtain rfl := Option.some.inj hj
      exact hv.grow he
    | succ j => exact hi j x v hx hj

theorem locates_valueFields (rs : Readings) (place : String) (p : Progress) : ∀ entries : List (String × Datum),
    (∀ e ∈ entries, e.2.Distinct) → ∀ f ∈ (valueFields rs place p entries).1, ∃ x, (f.1, x) ∈ entries ∧
      Locates (valueFields rs place p entries).2.heap x f.2
  | [], _ => by simp [valueFields]
  | (k, d) :: rest, hd => by
    have hrest : ∀ e ∈ rest, e.2.Distinct := fun e he => hd e (List.mem_cons_of_mem _ he)
    unfold valueFields
    split
    · intro f hm
      obtain ⟨x, hx, hs⟩ := locates_valueFields rs place p rest hrest f hm
      exact ⟨x, List.mem_cons_of_mem _ hx, hs⟩
    · have hv := locates_value rs (place ++ "." ++ k) p d (hd (k, d) List.mem_cons_self)
      have hf := locates_valueFields rs place (value rs (place ++ "." ++ k) p d).2 rest hrest
      have he := (sown_valueFields rs place (value rs (place ++ "." ++ k) p d).2 rest hrest).1
      refine List.forall_mem_cons.2 ⟨⟨d, List.mem_cons_self, hv.grow he⟩, fun f hm => ?_⟩
      obtain ⟨x, hx, hs⟩ := hf f hm
      exact ⟨x, List.mem_cons_of_mem _ hx, hs⟩

end

end Load

/-! ## The spans of tokens -/

/-- The token has the span that the datum gives it. -/
def TokenOf (d : Datum) (t : Token) : Prop :=
  ∃ es x, d = .mapping es ∧ Datum.find? es "loc" = some x ∧ x.span? = some t.span

/-- A token that is read without a defect has the span of its datum. -/
theorem token_spec {r : Load.SpanReading} {place : String} {d : Datum} (hf : (Load.token r place d).2 = []) :
    ∃ t, (Load.token r place d).1 = some t ∧ TokenOf d t := by
  cases d with
  | mapping es =>
    cases hx : Datum.find? es "loc" with
    | none => simp [Load.token, Datum.entries?, hx] at hf
    | some x =>
      simp only [Load.token, Datum.entries?, hx] at hf ⊢
      cases x with
      | mapping les => exact ⟨_, rfl, es, _, rfl, hx, by rw [Load.span_fst]; rfl⟩
      | _ => cases hf
  | _ => cases hf

/-- The tokens of a sequence that is read without a defect have the spans of its items, in their order. -/
theorem tokens_spec (rs : Load.Readings) : ∀ (items : List Datum) (i : Nat),
    ((items.zipIdx i).map fun x =>
      Load.token (rs.token x.2) ("$.tokens[" ++ toString x.2 ++ "]") x.1).flatMap Prod.snd = [] →
    List.Forall₂ TokenOf items (((items.zipIdx i).map fun x =>
      Load.token (rs.token x.2) ("$.tokens[" ++ toString x.2 ++ "]") x.1).filterMap Prod.fst)
  | [], _, _ => .nil
  | d :: rest, i, hf => by
    rw [List.zipIdx_cons, List.map_cons, List.flatMap_cons, List.append_eq_nil_iff] at hf
    obtain ⟨t, ht, hd⟩ := token_spec hf.1
    rw [List.zipIdx_cons, List.map_cons, List.filterMap_cons_some ht]
    exact .cons hd (tokens_spec rs rest (i + 1) hf.2)

theorem rootTokens_spec {rs : Load.Readings} {es : List (String × Datum)} {ts : List (Option Token)}
    (ht : (rootTokens rs es).1 = some ts) (hf : (rootTokens rs es).2 = []) : ∃ items tokens, Datum.find? es "tokens" = some (.list items) ∧
      ts = tokens.map some ∧ List.Forall₂ TokenOf items tokens := by
  unfold rootTokens at ht hf
  cases hd : Datum.find? es "tokens" with
  | none => simp [hd] at ht
  | some d =>
    rw [hd] at ht hf
    cases d with
    | list items => exact ⟨items, _, rfl, (Option.some.inj ht).symm, tokens_spec rs items 0 hf⟩
    | _ => cases hf

/-! ## Documents -/

/-- The node was read from the mapping, below the value that was read from the datum. -/
inductive NodeFrom (h : Heap) : Datum → Value → List (String × Datum) → NodeId → Prop
  | here (es : List (String × Datum)) (n : NodeId) : NodeFrom h (.mapping es) (.node n) es n
  | field {es fs : List (String × Datum)} {n m : NodeId} {k : String} {v : Value} {x : Datum}
    (hv : (k, v) ∈ (h.node n).fields.entries) (hx : Datum.find? es k = some x) (hm : NodeFrom h x v fs m) :
    NodeFrom h (.mapping es) (.node n) fs m
  | item {items : List Datum} {l : ListId} {fs : List (String × Datum)} {m : NodeId} {i : Nat} {v : Value} {x : Datum}
    (hv : (h.list l)[i]? = some v) (hx : items[i]? = some x) (hm : NodeFrom h x v fs m) :
    NodeFrom h (.list items) (.list l) fs m

section NodeFrom

variable {h h' : Heap} {d : Datum} {v : Value} {es : List (String × Datum)} {m : NodeId}

theorem NodeFrom.congr (hn : h'.nodes = h.nodes) (hl : h'.lists = h.lists) (hm : NodeFrom h d v es m) :
    NodeFrom h' d v es m := by
  induction hm with
  | here es n => exact .here es n
  | field hv hx _ ih => exact .field (by simpa [Heap.node, hn] using hv) hx ih
  | item hv hx _ ih => exact .item (by simpa [Heap.list, hl] using hv) hx ih

theorem below_of_nodeFrom (hm : NodeFrom h d v es m) : h.Below v (.node m) := by
  induction hm with
  | here => exact .refl
  | field hv _ _ ih => exact .head (List.mem_map_of_mem hv) ih
  | item hv _ _ ih => exact .head (List.mem_of_getElem? hv) ih

/-- Every node below a value that shows a datum was read from a mapping in it. -/
theorem Shows.exists_nodeFrom (hs : Shows h d v) (hm : h.Below v (.node m)) : ∃ es, NodeFrom h d v es m := by
  induction hs with
  | @list items l hlen _ _ ih =>
    rcases below_node_iff.1 hm with hm | ⟨w, hw, hm⟩
    · cases hm
    · obtain ⟨i, hi, rfl⟩ := List.mem_iff_getElem.1 hw
      have hv := List.getElem?_eq_getElem hi
      have hx := List.getElem?_eq_getElem (hlen ▸ hi)
      obtain ⟨es, hes⟩ := ih i _ _ hx hv hm
      exact ⟨es, .item hv hx hes⟩
  | @node es n _ hkeys _ ih =>
    rcases below_node_iff.1 hm with hm | ⟨w, hw, hm⟩
    · obtain rfl := Value.node.inj hm
      exact ⟨es, .here es n⟩
    · obtain ⟨⟨k, w⟩, he, rfl⟩ := List.mem_map.1 hw
      have hk : k ∈ fieldKeys es := hkeys ▸ List.mem_map_of_mem he
      obtain ⟨x, hx⟩ := exists_find?_of_mem_fieldKeys hk
      obtain ⟨fs, hfs⟩ := ih k w x he hx hm
      exact ⟨fs, .field he hx hfs⟩
  | _ =>
    rcases below_node_iff.1 hm with hm | ⟨w, hw, -⟩
    · cases hm
    · simp [members] at hw

theorem Locates.spanAt (hs : Locates h d v) (hm : NodeFrom h d v es m) : SpanAt h es (h.node m).location := by
  induction hm with
  | here es n =>
    cases hs with
    | flat hn => exact absurd rfl (hn n)
    | node _ hs _ => exact hs
  | @field es _ n _ k v x hv hx _ ih =>
    cases hs with
    | flat hn => exact absurd rfl (hn n)
    | node _ _ hf => exact ih (hf k v x hv hx)
  | @item items l _ _ i v x hv hx _ ih =>
    cases hs with
    | flat _ hl => exact absurd rfl (hl l)
    | list _ hi => exact ih (hi i x v hx hv)

end NodeFrom

/-- The span of a node of the tree or of a token that is attached to one. -/
def SpanIn (h : Heap) (n : NodeId) (s : Span) : Prop :=
  ∃ m loc, h.Below (.node n) (.node m) ∧ h.location? m = some loc ∧
    (s = loc.span ∨ ∃ r t, loc.range = some r ∧ some t ∈ r.tokens ∧ s = t.span)

/-- The start or the end of a node of the tree or of a token that is attached to one. -/
def PositionIn (h : Heap) (n : NodeId) (p : Position) : Prop := ∃ s, SpanIn h n s ∧ (p = s.start ∨ p = s.stop)

/-- The span of the tree was read from the datum in the document: that of a node from the location of its mapping, that
of a token from the location of the item at its index. -/
inductive SpanFrom (h : Heap) (n : NodeId) : Datum → Span → Datum → Prop
  | node {d x : Datum} {es : List (String × Datum)} {m : NodeId} {loc : Location}
    (hm : NodeFrom h d (.node n) es m) (hloc : h.location? m = some loc) (hx : Datum.find? es "loc" = some x) :
    SpanFrom h n d loc.span x
  | token {es ts : List (String × Datum)} {items : List Datum} {x : Datum} {i : Nat} {m : NodeId} {loc : Location}
    {r : TokenRange} {t : Token} (hm : h.Below (.node n) (.node m)) (hloc : h.location? m = some loc)
    (hr : loc.range = some r) (ht : r.tokens[i]? = some (some t)) (hitems : Datum.find? es "tokens" = some (.list items))
    (hi : items[i]? = some (.mapping ts)) (hx : Datum.find? ts "loc" = some x) : SpanFrom h n (.mapping es) t.span x

/-- The position of the tree was read from the datum in the document. -/
inductive PositionFrom (h : Heap) (n : NodeId) (d : Datum) : Position → Datum → Prop
  | start {s : Span} {es : List (String × Datum)} {x : Datum} (hs : SpanFrom h n d s (.mapping es))
    (hx : Datum.find? es "start" = some x) : PositionFrom h n d s.start x
  | stop {s : Span} {es : List (String × Datum)} {x : Datum} (hs : SpanFrom h n d s (.mapping es))
    (hx : Datum.find? es "end" = some x) : PositionFrom h n d s.stop x

/-- How the locations of a loaded tree come from the document. -/
theorem exists_spans_of_load {rs : Load.Readings} {h heap : Heap} {d : Datum} {n : NodeId}
    (hl : load rs h d = .ok (n, heap)) :
    ∃ (es : List (String × Datum)) (h₀ : Heap), d = .mapping es ∧ Shows heap d (.node n) ∧ Locates h₀ d (.node n) ∧
      heap.nodes = h₀.nodes ∧ heap.lists = h₀.lists ∧
      ∀ m loc, heap.Below (.node n) (.node m) → heap.location? m = some loc →
        (∃ l, (heap.node m).location = some l ∧ h₀.locations[l.index]? = some { span := loc.span }) ∧
        ∀ r, loc.range = some r → ∃ items tokens, Datum.find? es "tokens" = some (.list items) ∧
          r.tokens = tokens.map some ∧ List.Forall₂ TokenOf items tokens := by
  obtain ⟨es, p, rfl, hread, hf, hheap⟩ := exists_read_of_load hl
  have hdistinct := Datum.distinct_settled (.mapping es)
  have hs := (Load.sown_value rs "$" ⟨h, (rootTokens rs es).2⟩ _ hdistinct).2
  have hlocates := Load.locates_value rs "$" ⟨h, (rootTokens rs es).2⟩ _ hdistinct
  obtain ⟨fs, hfaults, -⟩ := adds_value rs "$" ⟨h, (rootTokens rs es).2⟩ _ hdistinct
  rw [hread] at hs hlocates hfaults
  have htokens : (rootTokens rs es).2 = [] := (List.append_eq_nil_iff.1 (hfaults.symm.trans hf)).1
  have hspan : ∀ {m loc}, p.heap.LocatedAt m loc → loc.range = none →
      ∃ l, (p.heap.node m).location = some l ∧ p.heap.locations[l.index]? = some { span := loc.span } := by
    rintro m ⟨s, r⟩ ⟨l, hl, hat⟩ rfl
    exact ⟨l, hl, hat⟩
  rcases hheap with ⟨-, rfl⟩ | ⟨ts, ht, rfl⟩
  · refine ⟨es, p.heap, rfl, hs.shown.of_settled, hlocates.of_settled, rfl, rfl, fun m loc hm hloc => ?_⟩
    obtain ⟨hat, hrange⟩ := hs.locatedAt hm hloc
    refine ⟨hspan hat hrange, fun r hr => ?_⟩
    rw [hrange] at hr
    cases hr
  · obtain ⟨items, tokens, hitems, rfl, hall⟩ := rootTokens_spec ht htokens
    have hg := grows_attach p.heap (.node n) (tokens.map some)
    obtain ⟨h', ns, hattach, ha, -⟩ := hs.loaded.plain.acyclic.attached tokens
    rw [hattach] at hg
    refine ⟨es, p.heap, rfl, ?_, hlocates.of_settled, ?_, ?_, fun m loc hm hloc => ?_⟩
    · rw [hattach]
      exact (hs.shown.grow hg).of_settled
    · rw [hattach, ha.nodes]
    · rw [hattach, ha.lists]
    · rw [hattach, hs.loaded.below_iff hg] at hm
      obtain ⟨loc', hat, rfl⟩ := hs.exists_covering hm hloc
      have hat' := hspan hat (hs.locatedAt hm hat.location?).2
      rw [hattach, ha.node_eq]
      refine ⟨hat', fun r hr => ⟨items, tokens, hitems, ?_, hall⟩⟩
      obtain rfl := Option.some.inj hr
      rfl

section Load

variable {rs : Load.Readings} {h heap : Heap} {d x : Datum} {n : NodeId}

/-- A span of a loaded tree is the one that its datum stands for. -/
theorem SpanFrom.span?_eq {s : Span} (hl : load rs h d = .ok (n, heap)) (hs : SpanFrom heap n d s x) :
    x.span? = some s := by
  obtain ⟨es, h₀, hd, hshows, hlocates, hnodes, hlists, hlocs⟩ := exists_spans_of_load hl
  have hnode : ∀ m, h₀.node m = heap.node m := fun m => by simp [Heap.node, hnodes]
  cases hs with
  | @node _ _ fs m loc hm hloc hx =>
    obtain ⟨⟨l, hat, hspan⟩, -⟩ := hlocs m loc (below_of_nodeFrom hm) hloc
    have hown := hlocates.spanAt (hm.congr hnodes.symm hlists.symm)
    rw [hnode, hat] at hown
    obtain ⟨s, hown, hat'⟩ := hown
    obtain rfl : loc.span = s := by
      rw [hat'] at hspan
      simpa using hspan.symm
    simpa [ownSpan?, hx] using hown
  | @token _ ts items _ i m loc r t hm hloc hr ht hitems hi hx =>
    obtain rfl := Datum.mapping.inj hd
    obtain ⟨items', tokens, hitems', htokens, hall⟩ := (hlocs m loc hm hloc).2 r hr
    obtain rfl : items' = items := by simpa [hitems] using hitems'.symm
    have ht' : tokens[i]? = some t := by simpa [htokens] using ht
    obtain ⟨hlt, hitem⟩ := List.getElem?_eq_some_iff.1 hi
    obtain ⟨hlt', rfl⟩ := List.getElem?_eq_some_iff.1 ht'
    obtain ⟨us, y, hts, hy, hspan⟩ := hall.get hlt hlt'
    obtain rfl := Datum.mapping.inj (hitem.symm.trans hts)
    obtain rfl : x = y := Option.some.inj (hx.symm.trans hy)
    exact hspan

/-- Every span of a loaded tree was read from a datum of the document. -/
theorem exists_spanFrom {s : Span} (hl : load rs h d = .ok (n, heap)) (hs : SpanIn heap n s) :
    ∃ x, SpanFrom heap n d s x := by
  obtain ⟨es, h₀, rfl, hshows, hlocates, hnodes, hlists, hlocs⟩ := exists_spans_of_load hl
  obtain ⟨m, loc, hm, hloc, rfl | ⟨r, t, hr, ht, rfl⟩⟩ := hs
  · obtain ⟨fs, hfrom⟩ := hshows.exists_nodeFrom hm
    obtain ⟨⟨l, hat, -⟩, -⟩ := hlocs m loc hm hloc
    have hown := hlocates.spanAt (hfrom.congr hnodes.symm hlists.symm)
    have hnode : h₀.node m = heap.node m := by simp [Heap.node, hnodes]
    rw [hnode, hat] at hown
    obtain ⟨s, hown, -⟩ := hown
    obtain ⟨x, hx, -⟩ := Option.bind_eq_some_iff.1 hown
    exact ⟨x, .node hfrom hloc hx⟩
  · obtain ⟨items, tokens, hitems, htokens, hall⟩ := (hlocs m loc hm hloc).2 r hr
    obtain ⟨i, hi, hti⟩ := List.mem_iff_getElem.1 ht
    have hlt' : i < tokens.length := by simpa [htokens] using hi
    have hlt : i < items.length := hall.length_eq ▸ hlt'
    obtain ⟨ts, x, hts, hx, -⟩ := hall.get hlt hlt'
    have hitem : items[i]? = some (.mapping ts) := (List.getElem?_eq_getElem hlt).trans (congrArg some hts)
    exact ⟨x, .token hm hloc hr (List.getElem?_eq_some_iff.2 ⟨hi, hti⟩) hitems hitem hx⟩

theorem PositionFrom.position_eq {p : Position} (hl : load rs h d = .ok (n, heap)) (hp : PositionFrom heap n d p x) :
    x.position = p := by
  cases hp with
  | start hs hx =>
    have hspan := hs.span?_eq hl
    simp only [Datum.span?, Datum.entries?, Option.map_some, Option.some.injEq, hx, Option.getD_some] at hspan
    rw [← hspan]
  | stop hs hx =>
    have hspan := hs.span?_eq hl
    simp only [Datum.span?, Datum.entries?, Option.map_some, Option.some.injEq, hx, Option.getD_some] at hspan
    rw [← hspan]

end Load

/-- Comparing positions that are near each other is a total preorder. -/
theorem compare_preorder {P : Position → Prop} (hnear : ∀ p q, P p → P q → p.Near q) :
    (∀ p q, P p → P q → p.compare q ≤ 0 ∨ q.compare p ≤ 0) ∧
    ∀ p q r, P p → P q → P r → p.compare q ≤ 0 → q.compare r ≤ 0 → p.compare r ≤ 0 := by
  constructor
  · intro p q hp hq
    rw [(hnear p q hp hq).compare_nonpos_iff, (hnear q p hq hp).compare_nonpos_iff, Position.before_iff,
      Position.before_iff]
    omega
  · intro p q r hp hq hr
    rw [(hnear p q hp hq).compare_nonpos_iff, (hnear q r hq hr).compare_nonpos_iff,
      (hnear p r hp hr).compare_nonpos_iff, Position.before_iff, Position.before_iff, Position.before_iff]
    omega

/-- Every span of a loaded tree was read from a datum of its document. Two positions of the tree compare as the
integers that are written for their lines and columns if the difference that decides fits a signed word; if the integers
themselves are signed words, in no other case. If no two positions of the tree are further apart than that, comparing
them is a total preorder and containment of its spans is transitive. -/
theorem load_orders {rs : Load.Readings} {h heap : Heap} {d : Datum} {n : NodeId} (hl : load rs h d = .ok (n, heap)) :
    (∀ s, SpanIn heap n s → ∃ x, SpanFrom heap n d s x) ∧
    (∀ p q x y l c l' c', PositionFrom heap n d p x → PositionFrom heap n d q y → x.Writes l c → y.Writes l' c' →
      (Position.FitsWord (Position.decisive l c l' c') →
        compare (p.compare q).toInt 0 = (compare l l').then (compare c c')) ∧
      (l < 2 ^ 63 ∧ c < 2 ^ 63 ∧ l' < 2 ^ 63 ∧ c' < 2 ^ 63 →
        compare (p.compare q).toInt 0 = (compare l l').then (compare c c') →
        Position.FitsWord (Position.decisive l c l' c'))) ∧
    ((∀ p q, PositionIn heap n p → PositionIn heap n q → p.Near q) →
      (∀ p q, PositionIn heap n p → PositionIn heap n q → p.compare q ≤ 0 ∨ q.compare p ≤ 0) ∧
      (∀ p q r, PositionIn heap n p → PositionIn heap n q → PositionIn heap n r → p.compare q ≤ 0 →
        q.compare r ≤ 0 → p.compare r ≤ 0) ∧
      ∀ s t u, SpanIn heap n s → SpanIn heap n t → SpanIn heap n u → s.contains t = true → t.contains u = true →
        s.contains u = true) := by
  refine ⟨fun s hs => exists_spanFrom hl hs, ?_, fun hnear => ?_⟩
  · intro p q x y l c l' c' hp hq hx hy
    rw [← hp.position_eq hl, ← hq.position_eq hl]
    exact ⟨Datum.compare_of_fitsWord hx hy, Datum.fitsWord_of_compare hx hy⟩
  · obtain ⟨htotal, htrans⟩ := compare_preorder hnear
    refine ⟨htotal, htrans, fun s t u hs ht hu hst htu => ?_⟩
    simp only [Span.contains, Bool.and_eq_true, decide_eq_true_eq] at *
    have start : ∀ {s}, SpanIn heap n s → PositionIn heap n s.start := fun hs => ⟨_, hs, .inl rfl⟩
    have stop : ∀ {s}, SpanIn heap n s → PositionIn heap n s.stop := fun hs => ⟨_, hs, .inr rfl⟩
    exact ⟨htrans _ _ _ (start hs) (start ht) (start hu) hst.1 htu.1,
      htrans _ _ _ (stop hu) (stop ht) (stop hs) htu.2 hst.2⟩

/-- A location from one line and column to another. -/
def between (line column line' column' : Datum) : Datum :=
  .mapping [("start", .mapping [("line", line), ("column", column)]),
    ("end", .mapping [("line", line'), ("column", column')])]

/-- The entries of a document of a node over another one, with a line that is as great as a signed word can be. -/
def deepEntries : List (String × Datum) :=
  [("type", .str "Program"), ("loc", between (.unsigned 1) (.unsigned 0) (.unsigned 9223372036854775807) (.signed (-3))),
    ("body", .mapping [("type", .str "Id"), ("loc", between (.unsigned 1) (.unsigned 0) (.unsigned 1) (.unsigned 4))])]

/-- The tree of this document. -/
def deepHeap : Heap where
  nodes := #[{ tag := "Id", location := some ⟨0⟩ },
    { tag := "Program", fields := .ofEntries [("body", .node ⟨0⟩)], location := some ⟨1⟩ }]
  locations := #[{ span := ⟨⟨1, 0, 0⟩, ⟨1, 4, 0⟩⟩ }, { span := ⟨⟨1, 0, 0⟩, ⟨9223372036854775807, -3, 0⟩⟩ }]

theorem load_deep : load .byKey {} (.mapping deepEntries) = .ok (⟨1⟩, deepHeap) := rfl

theorem mem_of_spanIn_deep {s : Span} (hs : SpanIn deepHeap ⟨1⟩ s) :
    s ∈ [⟨⟨1, 0, 0⟩, ⟨1, 4, 0⟩⟩, ⟨⟨1, 0, 0⟩, ⟨9223372036854775807, -3, 0⟩⟩] := by
  obtain ⟨m, loc, hm, hloc, hs⟩ := hs
  have hmem : m = ⟨1⟩ ∨ m = ⟨0⟩ := by
    rcases below_node_iff.1 hm with hm | ⟨w, hw, hm⟩
    · exact .inl (Value.node.inj hm).symm
    · obtain rfl : w = .node ⟨0⟩ := List.mem_singleton.1 hw
      rcases below_node_iff.1 hm with hm | ⟨w, hw, -⟩
      · exact .inr (Value.node.inj hm).symm
      · cases hw
  rcases hmem with rfl | rfl
  · obtain rfl := Option.some.inj hloc
    rcases hs with rfl | ⟨r, t, hr, -⟩
    · decide
    · cases hr
  · obtain rfl := Option.some.inj hloc
    rcases hs with rfl | ⟨r, t, hr, -⟩
    · decide
    · cases hr

theorem load_orders_deep : load .byKey {} (.mapping deepEntries) = .ok (⟨1⟩, deepHeap) ∧
    compare ((⟨1, 4, 0⟩ : Position).compare ⟨9223372036854775807, -3, 0⟩).toInt 0 =
      (compare (1 : Int) 9223372036854775807).then (compare 4 (-3)) ∧
    ∀ p q, PositionIn deepHeap ⟨1⟩ p → PositionIn deepHeap ⟨1⟩ q → p.compare q ≤ 0 ∨ q.compare p ≤ 0 := by
  obtain ⟨-, horder, hpreorder⟩ := load_orders load_deep
  refine ⟨load_deep, ?_, (hpreorder ?_).1⟩
  · have hinner : SpanFrom deepHeap ⟨1⟩ (.mapping deepEntries) ⟨⟨1, 0, 0⟩, ⟨1, 4, 0⟩⟩ _ :=
      @SpanFrom.node _ _ _ _ _ _ { span := ⟨⟨1, 0, 0⟩, ⟨1, 4, 0⟩⟩ } (.field (List.mem_singleton.2 rfl) rfl (.here _ ⟨0⟩))
        rfl rfl
    have houter : SpanFrom deepHeap ⟨1⟩ (.mapping deepEntries) ⟨⟨1, 0, 0⟩, ⟨9223372036854775807, -3, 0⟩⟩ _ :=
      @SpanFrom.node _ _ _ _ _ _ { span := ⟨⟨1, 0, 0⟩, ⟨9223372036854775807, -3, 0⟩⟩ } (.here _ ⟨1⟩) rfl rfl
    have hp := PositionFrom.stop hinner rfl
    have hq := PositionFrom.stop houter rfl
    exact (horder _ _ _ _ 1 4 9223372036854775807 (-3) hp hq ⟨_, rfl, rfl, rfl⟩ ⟨_, rfl, rfl, rfl⟩).1 (by decide)
  · rintro p q ⟨s, hs, hp⟩ ⟨t, ht, hq⟩
    have hs' := mem_of_spanIn_deep hs
    have ht' := mem_of_spanIn_deep ht
    simp only [List.mem_cons, List.not_mem_nil, or_false] at hs' ht'
    rcases hs' with rfl | rfl <;> rcases ht' with rfl | rfl <;> rcases hp with rfl | rfl <;>
      rcases hq with rfl | rfl <;> decide

/-- The entries of a document of one node, from a negative line on to the last line that a signed word can tell. -/
def farEntries : List (String × Datum) :=
  [("type", .str "Program"), ("loc", between (.signed (-2)) (.unsigned 0) (.unsigned 9223372036854775807) (.unsigned 0))]

/-- The tree of this document. -/
def farHeap : Heap where
  nodes := #[{ tag := "Program", location := some ⟨0⟩ }]
  locations := #[{ span := ⟨⟨-2, 0, 0⟩, ⟨9223372036854775807, 0, 0⟩⟩ }]

/-- The node is loaded with the start and the end that are written, but its start compares as after its end. -/
theorem compare_wraps_far : load .byKey {} (.mapping farEntries) = .ok (⟨0⟩, farHeap) ∧
    ∃ p q x y, PositionFrom farHeap ⟨0⟩ (.mapping farEntries) p x ∧
      PositionFrom farHeap ⟨0⟩ (.mapping farEntries) q y ∧ x.Writes (-2) 0 ∧ y.Writes 9223372036854775807 0 ∧
      compare (p.compare q).toInt 0 = .gt := by
  have hs : SpanFrom farHeap ⟨0⟩ (.mapping farEntries) ⟨⟨-2, 0, 0⟩, ⟨9223372036854775807, 0, 0⟩⟩ _ :=
    @SpanFrom.node _ _ _ _ _ _ { span := ⟨⟨-2, 0, 0⟩, ⟨9223372036854775807, 0, 0⟩⟩ } (.here _ ⟨0⟩) rfl rfl
  exact ⟨rfl, _, _, _, _, .start hs rfl, .stop hs rfl, ⟨_, rfl, rfl, rfl⟩, ⟨_, rfl, rfl, rfl⟩, by decide⟩

end Bracketing.Document
