import Bracketing.Proofs.Tree.Acyclic
import Bracketing.Proofs.Tree.Fields
import Bracketing.Tree.Grammar
import Bracketing.Tree.Kind

/-!
# Recording parentheses

That a node stood in parentheses is recorded in its remarks. Nothing else about a heap depends on them:

- `Heap.Alike`: two heaps differ at most in remarks, so that all that is read elsewhere reads the same;
- `alike_marking`: recording parentheses leads from a heap to one that is alike;
- `RemarksApart`: no remarks are common to a node that is marked and one that is not. One record preserves this
  (`RemarksApart.setParenthesized`), so after any number of them exactly the marked nodes read differently
  (`RemarksApart.marking_of_mem`, `RemarksApart.marking_of_not`).
-/

namespace Bracketing.Tree

namespace Heap

variable {h h' h'' : Heap} {n q : NodeId} {m : MapId} {k : String}

/-! ## Heaps that differ in remarks -/

/-- The two heaps hold the same nodes, lists and locations, up to the remarks of the nodes. -/
structure Alike (h h' : Heap) : Prop where
  size : h'.nodes.size = h.nodes.size
  lists : h'.lists = h.lists
  locations : h'.locations = h.locations
  tag : ∀ n, (h'.node n).tag = (h.node n).tag
  fields : ∀ n, (h'.node n).fields = (h.node n).fields
  location : ∀ n, (h'.node n).location = (h.node n).location

namespace Alike

theorem refl (h : Heap) : h.Alike h := ⟨rfl, rfl, rfl, fun _ => rfl, fun _ => rfl, fun _ => rfl⟩

theorem trans (ha : h.Alike h') (hb : h'.Alike h'') : h.Alike h'' where
  size := hb.size.trans ha.size
  lists := hb.lists.trans ha.lists
  locations := hb.locations.trans ha.locations
  tag n := (hb.tag n).trans (ha.tag n)
  fields n := (hb.fields n).trans (ha.fields n)
  location n := (hb.location n).trans (ha.location n)

variable (ha : h.Alike h')

include ha

theorem extent : h'.extent = h.extent := by
  simp [Heap.extent, ha.size, ha.lists]

theorem list (l : ListId) : h'.list l = h.list l := by
  simp [Heap.list, ha.lists]

theorem get (hk : k ≠ "extra") : h'.get n k = h.get n k := by
  simp [Heap.get, hk, ha.tag, ha.fields, ha.location]

theorem kind (x : Option NodeId) : h'.kind x = h.kind x := by
  cases x <;> simp [Heap.kind, ha.tag]

theorem child? (hk : k ≠ "extra") : h'.child? n k = h.child? n k := by
  simp only [Heap.child?, ha.get hk]

theorem elements (hk : k ≠ "extra") : h'.elements n k = h.elements n k := by
  simp only [Heap.elements, ha.get hk, ha.list]

theorem textAt (hk : k ≠ "extra") : h'.textAt n k = h.textAt n k := by
  simp only [Heap.textAt, ha.get hk]

theorem flagAt (hk : k ≠ "extra") : h'.flagAt n k = h.flagAt n k := by
  simp only [Heap.flagAt, ha.get hk]

theorem start (n : NodeId) : h'.start n = h.start n := by
  have hl : h'.location = h.location := by
    funext l
    simp [Heap.location, ha.locations]
  simp only [Heap.start, Heap.location?, ha.location, hl]

theorem same (v w : Value) : h'.same v w = h.same v w := by
  unfold Heap.same
  simp only [ha.list]

theorem members (v : Value) : h'.members v = h.members v := by
  cases v <;> simp [Heap.members, ha.fields, ha.list]

theorem below (v w : Value) : h'.Below v w ↔ h.Below v w := by
  have hmember : h'.Member = h.Member := by
    funext v w
    simp only [Member, ha.members]
  rw [Below, Below, hmember]

/-- A visit in preorder follows fields and lists only. -/
theorem inspectWithin {σ : Type} (visit : σ → NodeId → Bool × σ) : ∀ (depth : Nat) (v : Value) (s : σ),
    h'.inspectWithin visit depth v s = h.inspectWithin visit depth v s
  | 0, _, _ => rfl
  | depth + 1, v, s => by
    have hbelow : ∀ v s, h'.inspectWithin visit depth v s = h.inspectWithin visit depth v s := inspectWithin visit depth
    cases v with
    | node n => simp only [Heap.inspectWithin, ha.fields, hbelow]
    | list l => simp only [Heap.inspectWithin, ha.list, hbelow]
    | _ => rfl

theorem contains (test : NodeId → Bool) (v : Value) : h'.contains test v = h.contains test v := by
  simp only [Heap.contains, Heap.search, ha.inspectWithin, ha.extent]

end Alike

/-! ## One record -/

theorem setParenthesized_of_some (hm : (h.node n).extra = some m) (b : Bool) : h.setParenthesized n b =
    { h with maps := h.maps.modify m.index (·.set "parenthesized" (.bool b)) } := by
  simp only [setParenthesized, hm]

theorem setParenthesized_of_none (hm : (h.node n).extra = none) (b : Bool) : h.setParenthesized n b =
    { h with
      maps := h.maps.push (({} : Record).set "parenthesized" (.bool b))
      nodes := h.nodes.modify n.index fun x => { x with extra := some ⟨h.maps.size⟩ } } := by
  simp only [setParenthesized, hm, addMap, modifyNode]

/-- A node keeps all but its remarks, and remarks that it has are kept too. -/
theorem node_setParenthesized (n q : NodeId) (b : Bool) : (h.setParenthesized n b).node q =
    if q = n ∧ q.index < h.nodes.size ∧ (h.node n).extra = none then { h.node q with extra := some ⟨h.maps.size⟩ }
    else h.node q := by
  cases hm : (h.node n).extra with
  | some m => simp [setParenthesized_of_some hm, node]
  | none =>
    rw [setParenthesized_of_none hm]
    refine (node_modifyNode { h with maps := h.maps.push _ } n q _).trans (if_congr ?_ rfl rfl)
    constructor
    · rintro ⟨rfl, hq⟩
      exact ⟨rfl, hq, rfl⟩
    · rintro ⟨rfl, hq, -⟩
      exact ⟨rfl, hq⟩

theorem alike_setParenthesized (h : Heap) (n : NodeId) (b : Bool) : h.Alike (h.setParenthesized n b) where
  size := by cases hm : (h.node n).extra <;> simp [setParenthesized, hm, addMap, modifyNode]
  lists := by cases hm : (h.node n).extra <;> simp [setParenthesized, hm, addMap, modifyNode]
  locations := by cases hm : (h.node n).extra <;> simp [setParenthesized, hm, addMap, modifyNode]
  tag q := by rw [node_setParenthesized]; split <;> rfl
  fields q := by rw [node_setParenthesized]; split <;> rfl
  location q := by rw [node_setParenthesized]; split <;> rfl

theorem map_setParenthesized_of_some (hm : (h.node n).extra = some m) (b : Bool) (i : MapId) :
    (h.setParenthesized n b).map i =
      if i = m ∧ i.index < h.maps.size then (h.map i).set "parenthesized" (.bool b) else h.map i := by
  rw [setParenthesized_of_some hm]
  by_cases hi : i.index < h.maps.size
  · by_cases he : m.index = i.index
    · have hmi : i = m := by cases i; cases m; simp_all
      subst hmi
      simp [map, hi, Array.getElem_modify]
    · have hmi : i ≠ m := by rintro rfl; exact he rfl
      simp [map, hi, hmi, he, Array.getElem_modify]
  · simp [map, hi]

theorem map_setParenthesized_of_none (hm : (h.node n).extra = none) (b : Bool) (i : MapId) :
    (h.setParenthesized n b).map i =
      if i = ⟨h.maps.size⟩ then ({} : Record).set "parenthesized" (.bool b) else h.map i := by
  rw [setParenthesized_of_none hm]
  by_cases hi : i.index = h.maps.size
  · have he : i = ⟨h.maps.size⟩ := by cases i; simp_all
    subst he
    simp [map]
  · have he : i ≠ ⟨h.maps.size⟩ := by rintro rfl; exact hi rfl
    rw [if_neg he]
    by_cases hlt : i.index < h.maps.size
    · simp [map, hlt, Nat.lt_succ_of_lt hlt, Array.getElem_push]
    · have hge : ¬ i.index < h.maps.size + 1 := by omega
      simp [map, hlt, hge]

theorem parenthesized_of_some (hm : (h.node n).extra = some m) :
    h.parenthesized n = decide ((h.map m).get "parenthesized" = .bool true) := by
  simp only [parenthesized, hm]

theorem parenthesized_of_none (hm : (h.node n).extra = none) : h.parenthesized n = false := by
  simp only [parenthesized, hm]

/-! ## Remarks that are kept apart -/

/-- Among the nodes `inside`, remarks that a node refers to are there, and those of a `marked` node are of marked nodes
only. -/
structure RemarksApart (h : Heap) (inside marked : NodeId → Prop) : Prop where
  present : ∀ {n m}, inside n → (h.node n).extra = some m → m.index < h.maps.size
  apart : ∀ {n q m}, inside n → inside q → marked n → (h.node n).extra = some m → (h.node q).extra = some m → marked q

namespace RemarksApart

variable {inside marked : NodeId → Prop} {ns : List NodeId}

/-- One record is read at the node and at those that have its remarks. -/
theorem parenthesized_setParenthesized (hr : h.RemarksApart inside marked) (hq : inside q)
    (hlt : n.index < h.nodes.size) (b : Bool) : (h.setParenthesized n b).parenthesized q =
      if q = n ∨ (h.node n).extra ≠ none ∧ (h.node q).extra = (h.node n).extra then b else h.parenthesized q := by
  have hset : ∀ r : Record, decide ((r.set "parenthesized" (.bool b)).get "parenthesized" = .bool true) = b := by
    intro r
    cases b <;> simp [Record.get, Record.get?_set_self]
  cases hm : (h.node n).extra with
  | some m =>
    have hnode : (h.setParenthesized n b).node q = h.node q := by
      rw [node_setParenthesized, if_neg (by simp [hm])]
    cases hk : (h.node q).extra with
    | none =>
      have hne : q ≠ n := by
        rintro rfl
        rw [hk] at hm
        cases hm
      rw [parenthesized_of_none (by rw [hnode, hk]), parenthesized_of_none hk]
      simp [hne]
    | some i =>
      rw [parenthesized_of_some (m := i) (by rw [hnode, hk]), parenthesized_of_some hk,
        map_setParenthesized_of_some hm]
      by_cases hi : i = m
      · subst hi
        simp only [true_and, if_pos (hr.present hq hk), hset]
        simp
      · have hne : q ≠ n := by
          rintro rfl
          exact hi (Option.some.inj (hk.symm.trans hm))
        simp [hi, hne]
  | none =>
    by_cases he : q = n
    · subst he
      have hfresh : ((h.setParenthesized q b).node q).extra = some ⟨h.maps.size⟩ := by
        rw [node_setParenthesized, if_pos ⟨rfl, hlt, hm⟩]
      rw [parenthesized_of_some hfresh, map_setParenthesized_of_none hm, if_pos rfl, hset]
      simp
    · have hnode : (h.setParenthesized n b).node q = h.node q := by
        rw [node_setParenthesized, if_neg (by simp [he])]
      rw [if_neg (by simp [he])]
      cases hk : (h.node q).extra with
      | none => rw [parenthesized_of_none (by rw [hnode, hk]), parenthesized_of_none hk]
      | some i =>
        have hi : i ≠ ⟨h.maps.size⟩ := by
          rintro rfl
          exact Nat.lt_irrefl _ (hr.present hq hk)
        rw [parenthesized_of_some (m := i) (by rw [hnode, hk]), parenthesized_of_some hk,
          map_setParenthesized_of_none hm, if_neg hi]

/-- Remarks that are made anew are of no other node. -/
theorem setParenthesized (hr : h.RemarksApart inside marked) (hn : marked n) (b : Bool) :
    (h.setParenthesized n b).RemarksApart inside marked := by
  cases hm : (h.node n).extra with
  | some m =>
    rw [setParenthesized_of_some hm]
    constructor
    · intro q i hq hi
      simpa using hr.present hq hi
    · exact hr.apart
  | none =>
    -- whoever has remarks now has had them, or is the node with the new map
    have hextra : ∀ {q i}, ((h.setParenthesized n b).node q).extra = some i →
        (q = n ∧ i = ⟨h.maps.size⟩) ∨ (h.node q).extra = some i := by
      intro q i hi
      rw [node_setParenthesized] at hi
      split at hi
      · rename_i hq
        exact .inl ⟨hq.1, (Option.some.inj hi).symm⟩
      · exact .inr hi
    have hsize : (h.setParenthesized n b).maps.size = h.maps.size + 1 := by
      rw [setParenthesized_of_none hm]
      simp
    constructor
    · intro q i hq hi
      rw [hsize]
      rcases hextra hi with ⟨-, rfl⟩ | hold
      · exact Nat.lt_succ_self _
      · exact Nat.lt_succ_of_lt (hr.present hq hold)
    · intro a q i ha hq hmark hai hqi
      rcases hextra hqi with ⟨rfl, -⟩ | hqold
      · exact hn
      · rcases hextra hai with ⟨-, rfl⟩ | haold
        · exact absurd (hr.present hq hqold) (Nat.lt_irrefl _)
        · exact hr.apart ha hq hmark haold hqold

end RemarksApart

/-! ## Many records -/

/-- The heap where nodes are recorded, one after another, to have stood in parentheses. -/
def marking (h : Heap) (ns : List NodeId) : Heap := ns.foldl (fun h n => h.setParenthesized n true) h

theorem alike_marking (h : Heap) (ns : List NodeId) : h.Alike (h.marking ns) := by
  induction ns generalizing h with
  | nil => exact .refl h
  | cons n ns ih => exact (alike_setParenthesized h n true).trans (ih _)

namespace RemarksApart

variable {inside marked : NodeId → Prop} {ns : List NodeId}

/-- What every record of a marked node keeps holds after many. -/
theorem marking_induction {P : Heap → Prop} (hr : h.RemarksApart inside marked)
    (hns : ∀ n ∈ ns, inside n ∧ marked n ∧ n.index < h.nodes.size) (hP : P h)
    (hstep : ∀ h' n, h'.RemarksApart inside marked → inside n → marked n → n.index < h'.nodes.size → P h' →
      P (h'.setParenthesized n true)) : P (h.marking ns) := by
  induction ns generalizing h with
  | nil => exact hP
  | cons n ns ih =>
    obtain ⟨⟨hin, hn, hlt⟩, hns⟩ := List.forall_mem_cons.1 hns
    apply ih (hr.setParenthesized hn true)
    · intro q hq
      rw [(alike_setParenthesized h n true).size]
      exact hns q hq
    · exact hstep h n hr hin hn hlt hP

theorem marking (hr : h.RemarksApart inside marked)
    (hns : ∀ n ∈ ns, inside n ∧ marked n ∧ n.index < h.nodes.size) : (h.marking ns).RemarksApart inside marked :=
  hr.marking_induction (P := fun h' => h'.RemarksApart inside marked) hns hr
    fun _ _ hr' _ hn _ _ => hr'.setParenthesized hn true

/-- A node that is not marked reads as before. -/
theorem marking_of_not (hr : h.RemarksApart inside marked)
    (hns : ∀ n ∈ ns, inside n ∧ marked n ∧ n.index < h.nodes.size) (hq : inside q) (hnot : ¬ marked q) :
    (h.marking ns).parenthesized q = h.parenthesized q := by
  apply hr.marking_induction hns (P := fun h' => h'.parenthesized q = h.parenthesized q) rfl
  intro h' n hr' hin hn hlt hold
  rw [hr'.parenthesized_setParenthesized hq hlt, if_neg, hold]
  rintro (rfl | ⟨hsome, hsame⟩)
  · exact hnot hn
  · obtain ⟨m, hm⟩ := Option.ne_none_iff_exists'.1 hsome
    exact hnot (hr'.apart hin hq hn hm (hsame.trans hm))

/-- A node that is recorded reads so, whatever is recorded after it. -/
theorem marking_of_mem (hr : h.RemarksApart inside marked)
    (hns : ∀ n ∈ ns, inside n ∧ marked n ∧ n.index < h.nodes.size) (hn : n ∈ ns) :
    (h.marking ns).parenthesized n = true := by
  obtain ⟨xs, ys, rfl⟩ := List.append_of_mem hn
  obtain ⟨hin, hmark, hlt⟩ := hns n hn
  have hxs : ∀ q ∈ xs, inside q ∧ marked q ∧ q.index < h.nodes.size := fun q hq => hns q (List.mem_append_left _ hq)
  have hr' := hr.marking hxs
  have hsize : (h.marking xs).nodes.size = h.nodes.size := (alike_marking h xs).size
  have hsplit : h.marking (xs ++ n :: ys) = ((h.marking xs).setParenthesized n true).marking ys := by
    simp only [Heap.marking, List.foldl_append, List.foldl_cons]
  rw [hsplit]
  apply (hr'.setParenthesized hmark true).marking_induction (P := fun h' => h'.parenthesized n = true)
  · intro q hq
    rw [(alike_setParenthesized _ n true).size, hsize]
    exact hns q (List.mem_append_right _ (List.mem_cons_of_mem n hq))
  · rw [hr'.parenthesized_setParenthesized hin (hsize ▸ hlt), if_pos (.inl rfl)]
  · intro h' q hr'' _ _ hq hold
    rw [hr''.parenthesized_setParenthesized hin hq, hold, ite_self]

end RemarksApart

end Heap

/-! ## Grammars that do not ask for remarks -/

/-- The grammar gives the same answers about both heaps. -/
structure Grammar.Agrees (g : Grammar) (h h' : Heap) : Prop where
  isNode : ∀ v, g.isNode h' v = g.isNode h v
  isStatement : ∀ n, g.isStatement h' n = g.isStatement h n

theorem Heap.Alike.agrees_standard {h h' : Heap} (ha : h.Alike h') : Grammar.standard.Agrees h h' where
  isNode v := by cases v <;> simp [Grammar.standard, ha.tag]
  isStatement n := by simp [Grammar.standard, ha.tag]

end Bracketing.Tree
