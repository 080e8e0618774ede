import Bracketing.Path.Basic
import Bracketing.Proofs.Tree.Acyclic

/-!
# The simple extensions of a stack

From a stack a walk goes on to the members of its tip, each with its name on top of the stack, and enters a value
unless it has been met on the way. This is said without a walk:

- `Stack.children`: the stacks one member further down, in order;
- `Stack.enters`: the tip may be entered;
- `Reached`: the stacks that following members from one stack to the next comes to, all of them entered;
- `Stack.preorder`: those that end in a node, listed.

A stack that is reached holds only distinct objects above the one it started from, so that a bound on the depth of the
list does no harm (`Ample`). The list then holds exactly the stacks reached (`mem_preorder_iff`), a stack before those
above it and one child's before the next one's (`pairwise_preorder`), each once (`nodup_preorder`).
-/

namespace Bracketing

open Bracketing.Tree

variable {g : Grammar} {h : Heap} {st x y : List Value}

/-! ## One member further down -/

/-- The value is made for nodes: a node, the absence of one, or a list. -/
def Value.branches : Value → Bool
  | .node _ | .noNode | .list _ => true
  | _ => false

/-- The element of a list at an index; nothing outside the list. -/
def elementAt (h : Heap) (l : ListId) (i : Nat) : Value := ((h.list l)[i]?).getD .null

namespace Stack

/-- The stack at a field of a node. -/
def atField (h : Heap) (st : List Value) (n : NodeId) (key : String) : List Value := h.get n key :: .str key :: st

/-- The stack at an element of a list. -/
def atIndex (h : Heap) (st : List Value) (l : ListId) (i : Nat) : List Value := elementAt h l i :: .index i :: st

/-- The stacks one member further down: at the fields of a node that are made for nodes, in the order of the fields, and
at the elements of a list that are not holes, by ascending index. -/
def children (h : Heap) : List Value → List (List Value)
  | .node n :: rest =>
    (((h.node n).fields.keys.filter fun k => Value.branches (h.get n k)).map (atField h (.node n :: rest) n))
  | .list l :: rest =>
    (((List.range (h.list l).length).filter fun i => elementAt h l i ≠ .null).map (atIndex h (.list l :: rest) l))
  | _ => []

/-- The tip may be entered: it is a list or what the grammar takes for a node, and is none of the earlier values. -/
def enters (g : Grammar) (h : Heap) (st : List Value) : Bool :=
  match Stack.values st with
  | .list l :: earlier => !earlier.any (h.same · (.list l))
  | .node n :: earlier => g.isNode h (.node n) && !earlier.any (h.same · (.node n))
  | .noNode :: earlier => g.isNode h .noNode && !earlier.any (h.same · .noNode)
  | _ => false

/-- The tip is a node, or the absence of one. -/
def endsInNode : List Value → Bool
  | .node _ :: _ | .noNode :: _ => true
  | _ => false

theorem values_cons (v : Value) (st : List Value) : ∃ earlier, Stack.values (v :: st) = v :: earlier := by
  cases st with
  | nil => exact ⟨[], rfl⟩
  | cons n rest => exact ⟨Stack.values rest, rfl⟩

theorem exists_of_mem_children (hx : x ∈ children h st) : ∃ v name, x = v :: name :: st := by
  unfold children at hx
  split at hx
  · obtain ⟨k, -, rfl⟩ := List.mem_map.1 hx
    exact ⟨_, _, rfl⟩
  · obtain ⟨i, -, rfl⟩ := List.mem_map.1 hx
    exact ⟨_, _, rfl⟩
  · cases hx

/-- Names tell children apart. -/
theorem nodup_children (h : Heap) (st : List Value) : (children h st).Nodup := by
  unfold children
  split
  · refine List.Nodup.map_on (fun a _ b _ hab => ?_) ((Record.distinct _).filter _)
    simpa [atField] using (List.cons.inj (List.cons.inj hab).2).1
  · refine List.Nodup.map_on (fun a _ b _ hab => ?_) (List.nodup_range.filter _)
    exact Int.ofNat.inj (Value.index.inj (List.cons.inj (List.cons.inj hab).2).1)
  · exact List.nodup_nil

/-- A field that is made for nodes holds a member. -/
theorem member_of_branches {n : NodeId} {k : String} (hb : Value.branches (h.get n k) = true) :
    h.Member (.node n) (h.get n k) := by
  refine Heap.member_of_get_ne rfl ?_ ?_ ?_ ?_ <;>
    · intros
      intro he
      simp [he, Value.branches] at hb

/-- A tip that has a child has a member. -/
theorem member_of_mem_children {v : Value} {rest : List Value} (hx : x ∈ children h (v :: rest)) :
    ∃ w, h.Member v w := by
  unfold children at hx
  split at hx
  · rename_i n _ hst
    obtain ⟨rfl, rfl⟩ := List.cons.inj hst
    obtain ⟨k, hk, -⟩ := List.mem_map.1 hx
    exact ⟨_, member_of_branches (List.mem_filter.1 hk).2⟩
  · rename_i l _ hst
    obtain ⟨rfl, rfl⟩ := List.cons.inj hst
    obtain ⟨i, hi, -⟩ := List.mem_map.1 hx
    have hi' := List.mem_range.1 (List.mem_filter.1 hi).1
    exact ⟨_, Heap.member_of_mem (List.getElem_mem hi')⟩
  · cases hx

/-- What may be entered is a node, the absence of one, or a list. -/
theorem endsInNode_or_list {tip : Value} {rest : List Value} (he : enters g h (tip :: rest) = true) :
    endsInNode (tip :: rest) = true ∨ ∃ l, tip = .list l := by
  obtain ⟨earlier, hv⟩ := values_cons tip rest
  unfold enters at he
  rw [hv] at he
  cases tip with
  | node n => exact .inl rfl
  | noNode => exact .inl rfl
  | list l => exact .inr ⟨l, rfl⟩
  | _ => cases he

/-- A tip that may be entered is none of the earlier values, except for empty lists. -/
theorem not_mem_of_enters {v : Value} {earlier : List Value} (hv : Stack.values st = v :: earlier)
    (he : enters g h st = true) (hl : ∀ l, v = .list l → h.list l ≠ []) : v ∉ earlier := by
  intro hm
  unfold enters at he
  rw [hv] at he
  cases v with
  | node n =>
    simp only [Bool.and_eq_true, Bool.not_eq_true', List.any_eq_false] at he
    exact he.2 _ hm (by simp [Heap.same])
  | noNode =>
    simp only [Bool.and_eq_true, Bool.not_eq_true', List.any_eq_false] at he
    exact he.2 _ hm (by simp [Heap.same])
  | list l =>
    simp only [Bool.not_eq_true', List.any_eq_false] at he
    exact he _ hm (by simp [Heap.same, hl l rfl])
  | _ => cases he

end Stack

open Stack

/-! ## The stacks reached -/

/-- Following members from one stack to the next, and entering every value on the way, comes to the stack. -/
inductive Reached (g : Grammar) (h : Heap) (start : List Value) : List Value → Prop
  | start (he : enters g h start = true) : Reached g h start start
  | child {st x : List Value} (hst : Reached g h start st) (hx : x ∈ children h st) (he : enters g h x = true) :
      Reached g h start x

namespace Reached

variable {start : List Value}

theorem enters_start (hx : Reached g h start x) : enters g h start = true := by
  induction hx with
  | start he => exact he
  | child _ _ _ ih => exact ih

/-- What is reached from a child is reached. -/
theorem of_child (he : enters g h start = true) (hst : st ∈ children h start) (hx : Reached g h st x) :
    Reached g h start x := by
  induction hx with
  | start he' => exact .child (.start he) hst he'
  | child _ hc he' ih => exact .child ih hc he'

/-- What is reached is the start, or is reached from a child of it. -/
theorem eq_or_child (hx : Reached g h start x) : x = start ∨ ∃ st ∈ children h start, Reached g h st x := by
  induction hx with
  | start _ => exact .inl rfl
  | child _ hc he ih =>
    rcases ih with rfl | ⟨st, hst, hr⟩
    · exact .inr ⟨_, hc, .start he⟩
    · exact .inr ⟨st, hst, hr.child hc he⟩

end Reached

/-! ## The list of them -/

/-- The stacks reached that end in a node, at most `depth` values deep: a stack before those of its children, and the
children in order. -/
def Stack.preorder (g : Grammar) (h : Heap) : Nat → List Value → List (List Value)
  | 0, _ => []
  | depth + 1, st =>
    if enters g h st then
      (if endsInNode st then [st] else []) ++ (children h st).flatMap (preorder g h depth)
    else []

theorem suffix_of_mem_preorder : ∀ {depth : Nat} {st : List Value}, x ∈ preorder g h depth st → st <:+ x
  | 0, _, hx => by cases hx
  | depth + 1, st, hx => by
    unfold preorder at hx
    split at hx
    · rcases List.mem_append.1 hx with hx | hx
      · split at hx
        · rw [List.mem_singleton.1 hx]
        · cases hx
      · obtain ⟨y, hy, hx⟩ := List.mem_flatMap.1 hx
        obtain ⟨v, name, rfl⟩ := exists_of_mem_children hy
        exact (List.suffix_append [v, name] st).trans (suffix_of_mem_preorder hx)
    · cases hx

/-- The heap has at most so many nodes and so many lists. -/
def Bounded (nodes lists : Nat) (h : Heap) : Prop := h.nodes.size ≤ nodes ∧ h.lists.size ≤ lists

theorem Bounded.inside {nodes lists : Nat} {v w : Value} (hb : Bounded nodes lists h) (hw : h.Member v w) :
    Heap.Inside nodes lists v := by
  cases v with
  | node n => exact Nat.lt_of_lt_of_le (Heap.node_index_lt hw) hb.1
  | list l => exact Nat.lt_of_lt_of_le (Heap.list_index_lt hw) hb.2
  | _ => exact (Heap.inside_of_member hw).elim

/-- The depth is enough for the stack where there are at most so many nodes and lists: distinct ones below the tip make
up for what is missing. -/
def Ample (nodes lists depth : Nat) (st : List Value) : Prop :=
  ∃ vs : List Value, vs.Nodup ∧ (∀ v ∈ vs, Heap.Inside nodes lists v) ∧ vs ⊆ (Stack.values st).tail ∧
    nodes + lists < vs.length + depth

namespace Ample

variable {nodes lists depth : Nat}

theorem of_lt (hd : nodes + lists < depth) (st : List Value) : Ample nodes lists depth st :=
  ⟨[], List.nodup_nil, by simp, by simp, by simpa using hd⟩

theorem not_zero (ha : Ample nodes lists 0 st) : False := by
  obtain ⟨vs, hd, hm, -, hlt⟩ := ha
  have := Heap.length_le_of_inside hd hm
  omega

/-- A depth that is enough for a stack whose tip is a new object is more than enough one member further down. -/
theorem push {v : Value} {rest : List Value} (ha : Ample nodes lists (depth + 1) (v :: rest))
    (hi : Heap.Inside nodes lists v) (hv : v ∉ (Stack.values (v :: rest)).tail) (name value : Value) :
    Ample nodes lists depth (value :: name :: v :: rest) := by
  obtain ⟨vs, hd, hm, hsub, hlt⟩ := ha
  obtain ⟨earlier, he⟩ := values_cons v rest
  rw [he, List.tail_cons] at hsub hv
  refine ⟨v :: vs, List.nodup_cons.2 ⟨fun h => hv (hsub h), hd⟩, List.forall_mem_cons.2 ⟨hi, hm⟩, ?_, ?_⟩
  · show v :: vs ⊆ Stack.values (v :: rest)
    rw [he]
    exact List.cons_subset_cons v hsub
  · simp only [List.length_cons]
    omega

/-- A depth that is enough for a stack that is entered is more than enough for its children. -/
theorem child (ha : Ample nodes lists (depth + 1) st) (hb : Bounded nodes lists h) (he : enters g h st = true)
    (hx : x ∈ children h st) : Ample nodes lists depth x := by
  cases st with
  | nil => cases hx
  | cons v rest =>
    obtain ⟨w, hw⟩ := member_of_mem_children hx
    obtain ⟨tip, name, rfl⟩ := exists_of_mem_children hx
    obtain ⟨earlier, hv⟩ := values_cons v rest
    refine ha.push (hb.inside hw) ?_ name tip
    rw [hv, List.tail_cons]
    refine not_mem_of_enters hv he ?_
    rintro l rfl
    exact List.ne_nil_of_mem hw

end Ample

/-- The list holds exactly the stacks reached that end in a node. -/
theorem mem_preorder_iff {nodes lists : Nat} (hb : Bounded nodes lists h) :
    ∀ {depth : Nat} {st : List Value}, Ample nodes lists depth st →
    (x ∈ preorder g h depth st ↔ Reached g h st x ∧ endsInNode x = true)
  | 0, _, ha => ha.not_zero.elim
  | depth + 1, st, ha => by
    unfold preorder
    split
    · rename_i he
      simp only [List.mem_append, List.mem_flatMap]
      constructor
      · rintro (hx | ⟨y, hy, hx⟩)
        · split at hx
          · rename_i hn
            rw [List.mem_singleton.1 hx]
            exact ⟨.start he, hn⟩
          · cases hx
        · obtain ⟨hr, hn⟩ := (mem_preorder_iff hb (ha.child hb he hy)).1 hx
          exact ⟨.of_child he hy hr, hn⟩
      · rintro ⟨hr, hn⟩
        rcases hr.eq_or_child with rfl | ⟨y, hy, hr⟩
        · exact .inl (by simp [hn])
        · exact .inr ⟨y, hy, (mem_preorder_iff hb (ha.child hb he hy)).2 ⟨hr, hn⟩⟩
    · rename_i he
      simp only [List.not_mem_nil, false_iff]
      exact fun hr => he hr.1.enters_start

/-! ## Its order -/

/-- The first stack comes before the second in a walk: the second goes on from it, or they part at two children of one
stack, the first at the earlier one. -/
inductive Before (h : Heap) (x y : List Value) : Prop
  | above (hs : x <:+ y) (hne : x ≠ y)
  | beside {st a b : List Value} (hab : [a, b].Sublist (children h st)) (ha : a <:+ x) (hb : b <:+ y)

/-- Two children of one stack that one stack goes on from are the same. -/
theorem eq_of_children_suffix {a b : List Value} (ha : a ∈ children h st) (hb : b ∈ children h st) (hax : a <:+ x)
    (hbx : b <:+ x) : a = b := by
  obtain ⟨v, n, rfl⟩ := exists_of_mem_children ha
  obtain ⟨w, m, rfl⟩ := exists_of_mem_children hb
  exact (List.suffix_of_suffix_length_le hax hbx (by simp)).eq_of_length (by simp)

/-- No stack comes before itself. -/
theorem Before.ne (hb : Before h x y) : x ≠ y := by
  rintro rfl
  cases hb with
  | above _ hne => exact hne rfl
  | beside hab ha hb =>
    have hd := (nodup_children h _).sublist hab
    have hm := hab.subset
    rw [eq_of_children_suffix (hm (by simp)) (hm (by simp)) ha hb] at hd
    simp at hd

theorem pairwise_preorder : ∀ (depth : Nat) (st : List Value), (preorder g h depth st).Pairwise (Before h)
  | 0, _ => List.Pairwise.nil
  | depth + 1, st => by
    unfold preorder
    split
    · refine List.pairwise_append.2 ⟨by split <;> simp, List.pairwise_flatMap.2 ⟨?_, ?_⟩, ?_⟩
      · exact fun y _ => pairwise_preorder depth y
      · refine List.pairwise_iff_forall_sublist.2 fun hab x hx y hy => ?_
        exact .beside hab (suffix_of_mem_preorder hx) (suffix_of_mem_preorder hy)
      · intro x hx y hy
        obtain ⟨z, hz, hy⟩ := List.mem_flatMap.1 hy
        obtain ⟨v, name, rfl⟩ := exists_of_mem_children hz
        have hzy := suffix_of_mem_preorder hy
        split at hx
        · rw [List.mem_singleton.1 hx]
          refine .above ((List.suffix_append [v, name] st).trans hzy) ?_
          rintro rfl
          have := hzy.length_le
          simp only [List.length_cons] at this
          omega
        · cases hx
    · exact List.Pairwise.nil

/-- No stack is listed twice. -/
theorem nodup_preorder (depth : Nat) (st : List Value) : (preorder g h depth st).Nodup :=
  (pairwise_preorder depth st).imp fun hb => hb.ne

end Bracketing
