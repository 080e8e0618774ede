import Bracketing.Proofs.Document.Faults
import Bracketing.Proofs.Document.Loaded
import Bracketing.Proofs.Document.Settled
import Bracketing.Proofs.Tree.Sightings
import Bracketing.Proofs.Tree.TokenRange

/-!
# What a loaded tree shows of its document

A value shows a datum if it is built as the datum is: a node for a mapping with a type, with a field for every other key
that is not set aside, a list of the same length for a list, a number, a text, a truth value or nothing for a scalar, and
a map that nobody looks into for every other mapping (`Shows`).

Reading a document adds objects of its own for everything it reads, so that the tree shares nothing (`Sown`).

* **One datum** (`sown_value`, with its items and fields): its value shows it, among new objects.
-/

namespace Bracketing.Tree.Heap

variable {h h' h'' : Heap} {v w : Value}

/-! ## Heaps that grow in locations as well -/

/-- The second heap has moreover the locations of the first. -/
structure GrowsAll (h h' : Heap) : Prop extends Grows h h' where
  locations : h.locations.toList <+: h'.locations.toList

namespace GrowsAll

theorem refl (h : Heap) : GrowsAll h h := ⟨.refl h, List.prefix_rfl⟩

theorem trans (h₁ : GrowsAll h h') (h₂ : GrowsAll h' h'') : GrowsAll h h'' :=
  ⟨h₁.toGrows.trans h₂.toGrows, h₁.locations.trans h₂.locations⟩

theorem of_grows (hg : Grows h h') (hl : h'.locations = h.locations) : GrowsAll h h' := ⟨hg, hl ▸ List.prefix_rfl⟩

theorem size_le (he : GrowsAll h h') : h.nodes.size ≤ h'.nodes.size := he.nodes.length_le

theorem getElem?_locations {i : Nat} {loc : Location} (he : GrowsAll h h') (hl : h.locations[i]? = some loc) :
    h'.locations[i]? = some loc := by
  rw [← Array.getElem?_toList] at hl ⊢
  obtain ⟨hi, -⟩ := List.getElem?_eq_some_iff.1 hl
  obtain ⟨rest, hrest⟩ := he.locations
  rw [← hrest, List.getElem?_append_left hi, hl]

end GrowsAll

/-! ## Below a loaded value -/

theorem Loaded.members_eq (hg : Grows h h') (hv : h.Loaded v) : h'.members v = h.members v := (hv.regular.grow hg).2

theorem Loaded.member {v w : Value} (hv : h.Loaded v) (hw : w ∈ h.members v) : h.Loaded w :=
  hv.of_below (.single hw)

/-- What is below a loaded value stays the same while the heap grows. -/
theorem Loaded.below_iff (hg : Grows h h') (hv : h.Loaded v) : h'.Below v w ↔ h.Below v w := by
  induction hv with
  | @intro v hr hm ih =>
    have he : h'.members v = h.members v := (hr.grow hg).2
    rw [Below, Below, Relation.ReflTransGen.cases_head_iff, Relation.ReflTransGen.cases_head_iff]
    refine or_congr_right (exists_congr fun u => ?_)
    rw [Member, Member, he]
    exact and_congr_right fun hu => ih u hu

theorem Loaded.index_lt {n : NodeId} (hv : h.Loaded v) (hn : h.Below v (.node n)) : n.index < h.nodes.size :=
  index_lt_of_tag (hv.of_below hn).regular.1

theorem Apart.grow (hg : Grows h h') (hv : h.Loaded v) (hw : h.Loaded w) (ha : h.Apart v w) : h'.Apart v w := by
  intro n hn
  rw [hv.below_iff hg] at hn
  rw [hw.below_iff hg]
  exact ha n hn

theorem pairwise_apart_grow {vs : List Value} (hg : Grows h h') (hl : ∀ v ∈ vs, h.Loaded v)
    (ha : vs.Pairwise h.Apart) : vs.Pairwise h'.Apart :=
  ha.imp_of_mem fun hv hw => Apart.grow hg (hl _ hv) (hl _ hw)

theorem Unshared.grow (hg : Grows h h') (hl : h.Loaded v) (hu : h.Unshared v) : h'.Unshared v := by
  induction hu with
  | @intro v ha hd _ ih =>
    have he := hl.members_eq hg
    refine .intro (fun w hw => ?_) ?_ fun w hw => ?_
    · rw [he] at hw
      rw [(hl.member hw).below_iff hg]
      exact ha w hw
    · rw [he]
      exact pairwise_apart_grow hg (fun w hw => hl.member hw) hd
    · rw [he] at hw
      exact ih w hw (hl.member hw)

theorem unshared_of_flat (hn : ∀ n, v ≠ .node n) (hl : ∀ l, v ≠ .list l) : h.Unshared v := by
  have he : h.members v = [] := by
    cases v with
    | node n => exact absurd rfl (hn n)
    | list l => exact absurd rfl (hl l)
    | _ => rfl
  exact .intro (by simp [he]) (by simp [he]) (by simp [he])

/-- A new object shares nothing if what it holds does not. -/
theorem unshared_new (hg : Grows h h') (hl : ∀ w ∈ h'.members v, h.Loaded w) (hu : ∀ w ∈ h'.members v, h.Unshared w)
    (hd : (h'.members v).Pairwise h.Apart) (hnew : ∀ w, h.Loaded w → ¬ h.Below w v) : h'.Unshared v := by
  refine .intro (fun w hw => ?_) (pairwise_apart_grow hg hl hd) fun w hw => (hu w hw).grow hg (hl w hw)
  rw [(hl w hw).below_iff hg]
  exact hnew w (hl w hw)

end Bracketing.Tree.Heap

namespace Bracketing.Document

open Bracketing.Number Bracketing.Source Bracketing.Tree Bracketing.Tree.Heap

/-! ## Values that show data -/

/-- The names of the fields of a node: the keys that are not set aside, each at its first place. -/
def fieldKeys (es : List (String × Datum)) : List String :=
  ((es.map Prod.fst).filter (· ∉ Load.skippedKeys)).eraseDups

/-- The value is built as the datum is; under a key that is written again, its last value counts. -/
inductive Shows (h : Heap) : Datum → Value → Prop
  | null : Shows h .null .null
  | bool (b : Bool) : Shows h (.bool b) (.bool b)
  | str (s : String) : Shows h (.str s) (.str s)
  | unsigned (n : UInt64) : Shows h (.unsigned n) (.num (Double.ofInt n.toNat))
  | signed (i : Int64) : Shows h (.signed i) (.num (Double.ofInt i.toInt))
  | float (x : Double) : Shows h (.float x) (.num x)
  | list {items : List Datum} {l : ListId} (hlen : (h.list l).length = items.length) (hl : l.index < h.lists.size)
    (hi : ∀ (i : Nat) (x : Datum) (v : Value), items[i]? = some x → (h.list l)[i]? = some v → Shows h x v) :
    Shows h (.list items) (.list l)
  | node {es : List (String × Datum)} {n : NodeId} (htag : Load.tag? es = some (h.node n).tag)
    (hkeys : (h.node n).fields.keys = fieldKeys es)
    (hf : ∀ (k : String) (v : Value) (x : Datum), (k, v) ∈ (h.node n).fields.entries → Datum.find? es k = some x →
      Shows h x v) : Shows h (.mapping es) (.node n)
  | map {es : List (String × Datum)} {m : MapId} (hno : Load.tag? es = none) : Shows h (.mapping es) (.map m)

section Shows

variable {h h' : Heap} {d : Datum} {v : Value}

theorem Shows.grow (hg : Grows h h') (hs : Shows h d v) : Shows h' d v := by
  induction hs with
  | null => exact .null
  | bool b => exact .bool b
  | str s => exact .str s
  | unsigned n => exact .unsigned n
  | signed i => exact .signed i
  | float x => exact .float x
  | @list items l hlen hl _ ih =>
    have he := hg.list_eq hl
    exact .list (by rw [he, hlen]) (Nat.lt_of_lt_of_le hl hg.lists.length_le)
      fun i x v hx hv => ih i x v hx (by rwa [he] at hv)
  | @node es n htag hkeys _ ih =>
    have he := hg.node_eq (index_lt_of_tag (Load.tag?_ne htag))
    exact .node (by rw [he, htag]) (by rw [he, hkeys]) fun k v x hk hx => ih k v x (by rwa [he] at hk) hx
  | map hno => exact .map hno

/-- What shows a settled datum shows the datum. -/
theorem Shows.of_settled (hs : Shows h d.settled v) : Shows h d v := by
  generalize hd : d.settled = d' at hs
  induction hs generalizing d with
  | list hlen hl _ ih =>
    obtain ⟨items, rfl, rfl⟩ := Datum.eq_list_of_settled hd
    exact .list (by simpa using hlen) hl fun i x v hx hv => ih i x.settled v (by simp [hx]) hv rfl
  | node htag hkeys _ ih =>
    obtain ⟨es, rfl, rfl⟩ := Datum.eq_mapping_of_settled hd
    have hnodup := (Datum.nodup_settled es).filter (fun k => decide (k ∉ Load.skippedKeys))
    rw [fieldKeys, eraseDups_of_nodup hnodup, Datum.keys_settled, filter_eraseDups] at hkeys
    exact .node (by rw [← tag?_settled, htag]) hkeys fun k v x hk hx =>
      ih k v x.settled hk (by rw [Datum.find?_settled, hx]; rfl) rfl
  | map hno =>
    obtain ⟨es, rfl, rfl⟩ := Datum.eq_mapping_of_settled hd
    exact .map (by rw [← tag?_settled, hno])
  | _ =>
    obtain rfl := Datum.eq_of_settled (by simp) (by simp) hd
    constructor

end Shows

/-! ## Reading -/

/-- The value shows the datum and is made of objects of its own: nodes from an index on, none of them shared, and
locations that have no tokens yet. -/
structure Sown (first : Nat) (h : Heap) (d : Datum) (v : Value) : Prop where
  loaded : h.Loaded v
  shown : Shows h d v
  unshared : h.Unshared v
  fresh : ∀ n, h.Below v (.node n) → first ≤ n.index
  unranged : ∀ n, h.Below v (.node n) → ∀ l, (h.node n).location = some l →
    ∃ s, h.locations[l.index]? = some { span := s }

section Sown

variable {first : Nat} {h h' : Heap} {d : Datum} {v : Value}

theorem Sown.grow (he : GrowsAll h h') (hs : Sown first h d v) : Sown first h' d v where
  loaded := hs.loaded.grow he.toGrows
  shown := hs.shown.grow he.toGrows
  unshared := hs.unshared.grow he.toGrows hs.loaded
  fresh n hn := hs.fresh n ((hs.loaded.below_iff he.toGrows).1 hn)
  unranged n hn l hl := by
    rw [hs.loaded.below_iff he.toGrows] at hn
    rw [he.node_eq (hs.loaded.index_lt hn)] at hl
    obtain ⟨s, hloc⟩ := hs.unranged n hn l hl
    exact ⟨s, he.getElem?_locations hloc⟩

theorem Sown.mono {first' : Nat} (hle : first' ≤ first) (hs : Sown first h d v) : Sown first' h d v :=
  { hs with fresh := fun n hn => Nat.le_trans hle (hs.fresh n hn) }

/-- What is read later has nothing in common with what has been read before. -/
theorem Sown.apart {d' : Datum} {w : Value} (he : GrowsAll h h') (hv : Sown first h d v)
    (hw : Sown h.nodes.size h' d' w) : h'.Apart v w := by
  intro n hn hn'
  rw [hv.loaded.below_iff he.toGrows] at hn
  have := hv.loaded.index_lt hn
  have := hw.fresh n hn'
  omega

/-- What holds no object needs none of its own. -/
theorem sown_flat (hs : Shows h d v) (hn : ∀ n, v ≠ .node n) (hl : ∀ l, v ≠ .list l) : Sown first h d v := by
  have hno : ∀ n, ¬ h.Below v (.node n) := by
    intro n hb
    rcases below_node_iff.1 hb with rfl | ⟨w, hw, -⟩
    · exact hn n rfl
    · cases v with
      | node n => exact hn n rfl
      | list l => exact hl l rfl
      | _ => simp [members] at hw
  exact ⟨Load.loaded_of_flat hn hl, hs, unshared_of_flat hn hl, fun n hb => absurd hb (hno n),
    fun n hb => absurd hb (hno n)⟩

/-- A new object is sown if what it holds is and has nothing in common. -/
theorem sown_new (he : GrowsAll h h') (hl : h'.Loaded v) (hs : Shows h' d v)
    (hall : ∀ w ∈ h'.members v, ∃ x, Sown first h x w) (ha : (h'.members v).Pairwise h.Apart)
    (hnew : ∀ w, h.Loaded w → ¬ h.Below w v)
    (hown : ∀ n, v = .node n → first ≤ n.index ∧
      ∀ l, (h'.node n).location = some l → ∃ s, h'.locations[l.index]? = some { span := s }) :
    Sown first h' d v := by
  have hbelow : ∀ n, h'.Below v (.node n) → first ≤ n.index ∧
      ∀ l, (h'.node n).location = some l → ∃ s, h'.locations[l.index]? = some { span := s } := by
    intro n hn
    rcases below_node_iff.1 hn with hn | ⟨w, hw, hb⟩
    · exact hown n hn
    · obtain ⟨x, hx⟩ := hall w hw
      exact ⟨(hx.grow he).fresh n hb, (hx.grow he).unranged n hb⟩
  refine ⟨hl, hs, ?_, fun n hn => (hbelow n hn).1, fun n hn => (hbelow n hn).2⟩
  exact unshared_new he.toGrows (fun w hw => (hall w hw).elim fun _ hx => hx.loaded)
    (fun w hw => (hall w hw).elim fun _ hx => hx.unshared) ha hnew

theorem exists_sown {items : List Datum} {vs : List Value} (hlen : vs.length = items.length)
    (hi : ∀ (i : Nat) (x : Datum) (v : Value), items[i]? = some x → vs[i]? = some v → Sown first h x v) :
    ∀ v ∈ vs, ∃ x, Sown first h x v := by
  intro v hv
  obtain ⟨i, hlt, rfl⟩ := List.mem_iff_getElem.1 hv
  exact ⟨_, hi i _ _ (List.getElem?_eq_getElem (hlen ▸ hlt)) (List.getElem?_eq_getElem hlt)⟩

theorem sown_addList {items : List Datum} {vs : List Value} (hlen : vs.length = items.length)
    (hi : ∀ (i : Nat) (x : Datum) (v : Value), items[i]? = some x → vs[i]? = some v → Sown first h x v)
    (ha : vs.Pairwise h.Apart) : Sown first (h.addList vs).2 (.list items) (.list (h.addList vs).1) := by
  have he : GrowsAll h (h.addList vs).2 := .of_grows (.addList h vs) rfl
  have hlist : (h.addList vs).2.list (h.addList vs).1 = vs := by simp [addList, list, Array.getD]
  have hall := exists_sown hlen hi
  have hshows : Shows (h.addList vs).2 (.list items) (.list (h.addList vs).1) := by
    refine .list (by rw [hlist, hlen]) (by simp [addList]) fun i x v hx hv => ?_
    rw [hlist] at hv
    exact (hi i x v hx hv).shown.grow he.toGrows
  refine sown_new he (Load.loaded_addList fun v hv => (hall v hv).elim fun _ hx => hx.loaded) hshows ?_ ?_
    (fun w hw hb => Nat.lt_irrefl _ (hw.of_below hb).regular) fun n hn => by cases hn
  · rwa [members, hlist]
  · rwa [members, hlist]

theorem sown_addNode {es : List (String × Datum)} {node : Node} (hfirst : first ≤ h.nodes.size)
    (htag : Load.tag? es = some node.tag) (hkeys : node.fields.keys = fieldKeys es)
    (hf : ∀ e ∈ node.fields.entries, ∃ x, Datum.find? es e.1 = some x ∧ Sown first h x e.2)
    (ha : (node.fields.entries.map Prod.snd).Pairwise h.Apart)
    (hloc : ∀ l, node.location = some l → ∃ s, h.locations[l.index]? = some { span := s }) :
    Sown first (h.addNode node).2 (.mapping es) (.node (h.addNode node).1) := by
  have he : GrowsAll h (h.addNode node).2 := .of_grows (.addNode h node) rfl
  have hnode : (h.addNode node).2.node (h.addNode node).1 = node := by simp [addNode, Heap.node, Array.getD]
  have hmembers : (h.addNode node).2.members (.node (h.addNode node).1) = node.fields.entries.map Prod.snd := by
    rw [members, hnode]
  have hname : ∀ e ∈ node.fields.entries, e.1 ≠ "type" ∧ e.1 ≠ "loc" ∧ e.1 ≠ "extra" := by
    intro e hm
    have hk : e.1 ∈ fieldKeys es := hkeys ▸ List.mem_map_of_mem hm
    rw [fieldKeys, List.mem_eraseDups, List.mem_filter] at hk
    exact Load.field_of_not_skipped (by simpa using hk.2)
  have hshows : Shows (h.addNode node).2 (.mapping es) (.node (h.addNode node).1) := by
    refine .node (by rw [hnode, htag]) (by rw [hnode, hkeys]) fun k v x hk hx => ?_
    rw [hnode] at hk
    obtain ⟨y, hy, hs⟩ := hf _ hk
    obtain rfl : y = x := Option.some.inj (hy.symm.trans hx)
    exact hs.shown.grow he.toGrows
  refine sown_new he (Load.loaded_addNode (Load.tag?_ne htag) fun e hm => ⟨hname e hm, (hf e hm).elim fun _ hx =>
    hx.2.loaded⟩) hshows (fun w hw => ?_) (by rwa [hmembers]) (fun w hw hb => Nat.lt_irrefl _ (hw.index_lt hb))
    fun n hn => ?_
  · rw [hmembers] at hw
    obtain ⟨e, hm, rfl⟩ := List.mem_map.1 hw
    obtain ⟨x, -, hx⟩ := hf e hm
    exact ⟨x, hx⟩
  · obtain rfl := Value.node.inj hn
    exact ⟨hfirst, fun l hl => hloc l (by rwa [hnode] at hl)⟩

end Sown

namespace Load

mutual

/-- Plain data add no location. -/
theorem locations_plain (h : Heap) : ∀ d : Datum, (plain h d).2.locations = h.locations
  | .list items => locations_plainItems h items
  | .mapping entries => locations_plainEntries h entries
  | .null | .bool _ | .unsigned _ | .signed _ | .float _ | .str _ => rfl

theorem locations_plainItems (h : Heap) : ∀ items : List Datum, (plainItems h items).2.locations = h.locations
  | [] => rfl
  | d :: rest => (locations_plainItems (plain h d).2 rest).trans (locations_plain h d)

theorem locations_plainEntries (h : Heap) : ∀ entries : List (String × Datum),
    (plainEntries h entries).2.locations = h.locations
  | [] => rfl
  | (_, d) :: rest => (locations_plainEntries (plain h d).2 rest).trans (locations_plain h d)

end

theorem growsAll_remarks (place : String) (entries : List (String × Datum)) (p : Progress) :
    GrowsAll p.heap (remarks place entries p).2.heap := by
  refine .of_grows (grows_remarks place entries p) ?_
  unfold remarks
  split
  · rfl
  · rfl
  · rename_i d _ _
    have hl := locations_plain p.heap d
    split <;> rename_i hp <;> rw [hp] at hl <;> exact hl

/-- The location of a node is a new one. -/
theorem growsAll_location (rs : Readings) (place : String) (entries : List (String × Datum)) (p : Progress) :
    GrowsAll p.heap (location rs place entries p).2.heap ∧ ∀ l, (location rs place entries p).1 = some l →
      ∃ s, (location rs place entries p).2.heap.locations[l.index]? = some { span := s } := by
  unfold location
  split
  · exact ⟨.refl _, by simp⟩
  · exact ⟨.refl _, by simp⟩
  · simp only
    split
    · exact ⟨.refl _, by simp⟩
    · rename_i s _
      refine ⟨⟨.of_eq rfl rfl, by simp [addLocation]⟩, fun l hl => ⟨s, ?_⟩⟩
      obtain rfl := Option.some.inj hl
      simp [addLocation]

theorem shows_scalar (h : Heap) {d : Datum} (hl : ∀ items, d ≠ .list items) (hm : ∀ es, d ≠ .mapping es) :
    Shows h d (scalar d) := by
  cases d with
  | list items => exact absurd rfl (hl items)
  | mapping es => exact absurd rfl (hm es)
  | null => exact .null
  | bool b => exact .bool b
  | str s => exact .str s
  | unsigned n => exact .unsigned n
  | signed i => exact .signed i
  | float x => exact .float x

theorem sown_scalar {first : Nat} (h : Heap) {d : Datum} (hl : ∀ items, d ≠ .list items) (hm : ∀ es, d ≠ .mapping es) :
    Sown first h d (scalar d) := by
  have hs := shows_scalar h hl hm
  refine sown_flat hs (fun n hn => ?_) fun l hn => ?_
  · rw [hn] at hs
    cases hs
    exact hm _ rfl
  · rw [hn] at hs
    cases hs
    exact hl _ rfl

mutual

/-- The value of a datum with distinct keys shows it, among new objects. -/
theorem sown_value (rs : Readings) (place : String) (p : Progress) : ∀ d : Datum, d.Distinct →
    GrowsAll p.heap (value rs place p d).2.heap ∧
      Sown p.heap.nodes.size (value rs place p d).2.heap d (value rs place p d).1
  | .list items, hd => by
    obtain ⟨he, hlen, hi, ha⟩ := sown_valueItems rs place 0 p items (Datum.distinct_list.1 hd)
    exact ⟨he.trans (.of_grows (.addList _ _) rfl), sown_addList hlen hi ha⟩
  | .mapping entries, hd => by
    obtain ⟨hk, hentries⟩ := Datum.distinct_mapping.1 hd
    unfold value
    split
    · rename_i tag ht
      obtain ⟨he, hkeys, hf, ha⟩ := sown_valueFields rs (place ++ "(" ++ tag ++ ")") p entries hentries
      obtain ⟨fields, p₁, hread⟩ : ∃ fields p₁, valueFields rs (place ++ "(" ++ tag ++ ")") p entries = (fields, p₁) :=
        ⟨_, _, rfl⟩
      rw [hread] at he hkeys hf ha
      simp only [hread]
      -- the remarks and the location come between the fields and the node
      obtain ⟨he₂, hloc⟩ := growsAll_location rs (place ++ "(" ++ tag ++ ")") entries
        (remarks (place ++ "(" ++ tag ++ ")") entries p₁).2
      have he' := (growsAll_remarks (place ++ "(" ++ tag ++ ")") entries p₁).trans he₂
      have hnodup : (fields.map Prod.fst).Nodup := hkeys ▸ hk.filter _
      have hrecord : (Record.ofEntries fields).entries = fields :=
        (Record.entries_ofEntries fields).trans (putEntries_of_nodup hnodup)
      refine ⟨(he.trans he').trans (.of_grows (.addNode _ _) rfl), sown_addNode (he.trans he').size_le ht ?_ ?_ ?_ hloc⟩
      · rw [Record.keys, hrecord, hkeys, fieldKeys, eraseDups_of_nodup (hk.filter _)]
      · rw [hrecord]
        intro e hm
        obtain ⟨x, hx, hs⟩ := hf e hm
        exact ⟨x, (Datum.find?_eq_some_iff hk).2 hx, hs.grow he'⟩
      · rw [hrecord]
        refine pairwise_apart_grow he'.toGrows (fun v hv => ?_) ha
        obtain ⟨e, hm, rfl⟩ := List.mem_map.1 hv
        obtain ⟨x, -, hs⟩ := hf e hm
        exact hs.loaded
    · rename_i ht
      have he : GrowsAll p.heap (plainEntries p.heap entries).2 :=
        .of_grows (grows_plainEntries p.heap entries) (locations_plainEntries p.heap entries)
      exact ⟨he.trans (.of_grows (.of_eq rfl rfl) rfl), sown_flat (.map ht) (by simp) (by simp)⟩
  | .null, _ | .bool _, _ | .unsigned _, _ | .signed _, _ | .float _, _ | .str _, _ => by
    simp only [value]
    exact ⟨.refl _, sown_scalar _ (by simp) (by simp)⟩

theorem sown_valueItems (rs : Readings) (place : String) (i : Nat) (p : Progress) : ∀ items : List Datum,
    (∀ x ∈ items, x.Distinct) →
    GrowsAll p.heap (valueItems rs place i p items).2.heap ∧ (valueItems rs place i p items).1.length = items.length ∧
      (∀ (j : Nat) (x : Datum) (v : Value), items[j]? = some x → (valueItems rs place i p items).1[j]? = some v →
        Sown p.heap.nodes.size (valueItems rs place i p items).2.heap x v) ∧
      (valueItems rs place i p items).1.Pairwise (valueItems rs place i p items).2.heap.Apart
  | [], _ => ⟨.refl _, rfl, by simp, .nil⟩
  | d :: rest, hd => by
    obtain ⟨he, hv⟩ := sown_value rs (place ++ "[" ++ toString i ++ "]") p d (hd d List.mem_cons_self)
    obtain ⟨he', hlen, hi, ha⟩ := sown_valueItems rs place (i + 1)
      (value rs (place ++ "[" ++ toString i ++ "]") p d).2 rest fun x hx => hd x (List.mem_cons_of_mem d hx)
    refine ⟨he.trans he', congrArg Nat.succ hlen, fun j x v hx hj => ?_, List.pairwise_cons.2 ⟨fun w hw => ?_, ha⟩⟩
    · cases j with
      | zero =>
        obtain rfl := Option.some.inj hx
        obtain rfl := Option.some.inj hj
        exact hv.grow he'
      | succ j => exact (hi j x v hx hj).mono he.size_le
    · obtain ⟨x, hx⟩ := exists_sown hlen hi w hw
      exact hv.apart he' hx

theorem sown_valueFields (rs : Readings) (place : String) (p : Progress) : ∀ entries : List (String × Datum),
    (∀ e ∈ entries, e.2.Distinct) → GrowsAll p.heap (valueFields rs place p entries).2.heap ∧
      (valueFields rs place p entries).1.map Prod.fst = (entries.map Prod.fst).filter (· ∉ skippedKeys) ∧
      (∀ f ∈ (valueFields rs place p entries).1, ∃ x, (f.1, x) ∈ entries ∧
        Sown p.heap.nodes.size (valueFields rs place p entries).2.heap x f.2) ∧
      ((valueFields rs place p entries).1.map Prod.snd).Pairwise (valueFields rs place p entries).2.heap.Apart
  | [], _ => ⟨.refl _, rfl, by simp [valueFields], .nil⟩
  | (k, d) :: rest, hd => by
    have hrest : ∀ e ∈ rest, e.2.Distinct := fun e he => hd e (List.mem_cons_of_mem _ he)
    unfold valueFields
    split
    · rename_i hk
      obtain ⟨he, hkeys, hf, ha⟩ := sown_valueFields rs place p rest hrest
      have hskip : ¬ decide (k ∉ skippedKeys) = true := by simpa using List.contains_iff_mem.1 hk
      refine ⟨he, by rw [hkeys, List.map_cons, List.filter_cons, if_neg hskip], fun f hm => ?_, ha⟩
      obtain ⟨x, hx, hs⟩ := hf f hm
      exact ⟨x, List.mem_cons_of_mem _ hx, hs⟩
    · rename_i hk
      have hkeep : decide (k ∉ skippedKeys) = true := by simpa using fun h => hk (List.contains_iff_mem.2 h)
      obtain ⟨he, hv⟩ := sown_value rs (place ++ "." ++ k) p d (hd (k, d) List.mem_cons_self)
      obtain ⟨he', hkeys, hf, ha⟩ := sown_valueFields rs place (value rs (place ++ "." ++ k) p d).2 rest hrest
      refine ⟨he.trans he', ?_, List.forall_mem_cons.2 ⟨⟨d, List.mem_cons_self, hv.grow he'⟩, fun f hm => ?_⟩,
        List.pairwise_cons.2 ⟨fun w hw => ?_, ha⟩⟩
      · rw [List.map_cons, List.map_cons, List.filter_cons, if_pos hkeep, hkeys]
      · obtain ⟨x, hx, hs⟩ := hf f hm
        exact ⟨x, List.mem_cons_of_mem _ hx, hs.mono he.size_le⟩
      · obtain ⟨f, hm, rfl⟩ := List.mem_map.1 hw
        obtain ⟨x, -, hs⟩ := hf f hm
        exact hv.apart he' hs

end

end Load

end Bracketing.Document
