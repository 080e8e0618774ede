import Bracketing.Verdict.Leading
import Mathlib.Data.List.Basic

/-!
# Indices and stacks

A path is asked by index: its entries are counted from the root, and loops go through every second index. The stack of
the path holds the same entries from the tip on, and recursion on it needs no indices. Here every such question is
answered by recursion on the stack.

* **Values and names** (`Path.rootValue_eq`, `Path.names_eq`): the root is the last of the values, and the names are the
  entries between them.
* **Nodes** (`Path.node_eq_lineage`): a count passes over that many nodes of the lineage.
* **Leading position** (`Climb.leads_eq`, `Path.leads_eq`): going up by index, where the last two nodes are judged again
  at every entry that is no node, is going from each node to the next.
-/

namespace Bracketing

open Bracketing.Tree

variable {g : Grammar} {h : Heap}

/-! ## Values and names -/

namespace Stack

/-- The entries at odd distance from the tip. -/
def names : List Value → List Value
  | _ :: n :: rest => n :: names rest
  | _ => []

theorem lt_of_mem_valueIndices : ∀ {n i : Nat}, i ∈ valueIndices n → i < n
  | 1, i, hi => by simp_all [valueIndices]
  | n + 2, i, hi => by
    rcases List.mem_cons.1 hi with rfl | hi
    · omega
    · have := lt_of_mem_valueIndices hi
      omega

/-- An entry below the two at the tip has the same index without them. -/
theorem getElem?_reverse_cons_cons (v name : Value) (rest : List Value) {i : Nat} (hi : i < rest.length) :
    (v :: name :: rest).reverse[i]? = rest.reverse[i]? := by
  rw [List.reverse_cons, List.reverse_cons, List.append_assoc, List.getElem?_append_left (by simpa using hi)]

/-- The entries at the indices of the values are the values. -/
theorem filterMap_valueIndices : ∀ st : List Value,
    (valueIndices st.length).filterMap (st.reverse[·]?) = values st
  | [] => rfl
  | [_] => rfl
  | v :: name :: rest => by
    have hrest : (valueIndices rest.length).filterMap ((v :: name :: rest).reverse[·]?) =
        (valueIndices rest.length).filterMap (rest.reverse[·]?) :=
      List.filterMap_congr fun i hi => getElem?_reverse_cons_cons v name rest (lt_of_mem_valueIndices hi)
    have htip : (v :: name :: rest).reverse[rest.length + 1]? = some v := by simp
    rw [List.length_cons, List.length_cons, valueIndices, List.filterMap_cons, htip, hrest,
      filterMap_valueIndices rest, values]

/-- The entry that the parity of their number gives for the root is the last of the values. -/
theorem getElem?_root : ∀ st : List Value,
    st.reverse[if st.length % 2 = 0 then 1 else 0]? = (values st).getLast?
  | [] => rfl
  | [_] => rfl
  | [v, name] => by simp [values]
  | v :: name :: w :: rest => by
    have hi : (if (w :: rest).length % 2 = 0 then 1 else 0) < (w :: rest).length := by
      split
      · rw [List.length_cons] at *
        omega
      · simp
    have hparity : (v :: name :: w :: rest).length % 2 = (w :: rest).length % 2 := by
      simp only [List.length_cons]
      omega
    rw [hparity, getElem?_reverse_cons_cons v name _ hi, getElem?_root (w :: rest), values]
    cases rest <;> simp [values, List.getLast?_cons]

/-- The entries that the parity of their number gives for the names are the names. -/
theorem filterMap_range' : ∀ st : List Value,
    (List.range' (if st.length % 2 = 0 then 0 else 1) (st.length / 2) 2).filterMap (st.reverse[·]?) =
      (names st).reverse
  | [] => rfl
  | [v] => by simp [names]
  | v :: name :: rest => by
    have hparity : (v :: name :: rest).length % 2 = rest.length % 2 := by
      simp only [List.length_cons]
      omega
    have hhalf : (v :: name :: rest).length / 2 = rest.length / 2 + 1 := by
      simp only [List.length_cons]
      omega
    have hlast : (if rest.length % 2 = 0 then 0 else 1) + 2 * (rest.length / 2) = rest.length := by
      split <;> omega
    have hrest : (List.range' (if rest.length % 2 = 0 then 0 else 1) (rest.length / 2) 2).filterMap
        ((v :: name :: rest).reverse[·]?) = (names rest).reverse := by
      rw [← filterMap_range' rest]
      refine List.filterMap_congr fun i hi => getElem?_reverse_cons_cons v name rest ?_
      obtain ⟨j, hj, rfl⟩ := List.mem_range'.1 hi
      omega
    have hname : (v :: name :: rest).reverse[rest.length]? = some name := by simp
    rw [hparity, hhalf, List.range'_concat, List.filterMap_append, hrest, hlast, names, List.reverse_cons (a := name)]
    simp only [List.filterMap_cons, hname, List.filterMap_nil]

end Stack

namespace Path

theorem rootValue_eq (p : Path) : p.rootValue = p.values.getLast?.elim (.error (.broken .noRoot)) .ok := by
  rw [rootValue, entries, length, Stack.getElem?_root, values]
  cases (Stack.values p.stack).getLast? <;> rfl

theorem names_eq (p : Path) : p.names = (Stack.names p.stack).reverse := Stack.filterMap_range' p.stack

/-! ## Nodes -/

/-- What the grammar takes for nodes among the values, from the tip to the root. -/
def lineage (p : Path) (h : Heap) : List (Option NodeId) := p.values.filterMap (p.grammar.asNode h)

/-- The number of nodes that a count passes over: none for a negative one. The least of all passes over more nodes than
there are. -/
def passedOver (k : Int64) : Nat := if k - 1 < 0 then 0 else (k - 1).toInt.toNat + 1

/-- A count that is not negative passes over as many nodes as it says. -/
theorem passedOver_eq {k : Int64} (hk : 0 ≤ k) : passedOver k = k.toInt.toNat := by
  have hk' : 0 ≤ k.toInt := by simpa using Int64.le_iff_toInt_le.1 hk
  by_cases h0 : k = 0
  · subst h0
    rfl
  have hne : k.toInt ≠ 0 := fun h => h0 (Int64.toInt_inj.1 (by simpa using h))
  have hlt := Int64.toInt_lt k
  have hsub : (k - 1).toInt = k.toInt - 1 := by
    rw [Int64.toInt_sub, Int64.toInt_one]
    exact Int.bmod_eq_of_le (by omega) (by omega)
  have hnot : ¬ k - 1 < 0 := by
    rw [Int64.lt_iff_toInt_lt, hsub, Int64.toInt_zero]
    omega
  rw [passedOver, if_neg hnot, hsub]
  omega

/-- One more is passed over for an ancestor, even where the count wraps around. -/
theorem passedOver_succ {k : Int64} (hk : 0 ≤ k) : passedOver (k + 1) = k.toInt.toNat + 1 := by
  have hk' : ¬ k < 0 := by
    rw [Int64.lt_iff_toInt_lt]
    have := Int64.le_iff_toInt_le.1 hk
    omega
  rw [passedOver, Int64.add_sub_cancel, if_neg hk']

/-- A count that a node does not bring below zero passes over that node. -/
theorem passedOver_of_not_neg {k : Int64} (hk : ¬ k - 1 < 0) : passedOver k = passedOver (k - 1) + 1 := by
  have hk' : 0 ≤ k - 1 := by
    rw [Int64.lt_iff_toInt_lt] at hk
    exact Int64.le_iff_toInt_le.2 (by omega)
  rw [passedOver_eq hk', passedOver, if_neg hk]

/-- Counting along some indices ends at the node that it does not pass over. -/
theorem nodeAlong_eq (entries : List Value) : ∀ (is : List Nat) (k : Int64), nodeAlong g h entries is k =
    ((is.filterMap fun i => entries[i]?.bind (g.asNode h))[passedOver k]?).join
  | [], _ => rfl
  | i :: rest, k => by
    rw [nodeAlong, List.filterMap_cons]
    cases hi : entries[i]?.bind (g.asNode h) with
    | none => exact nodeAlong_eq entries rest k
    | some n =>
      by_cases hk : k - 1 < 0
      · simp [hk, passedOver]
      · simp only [hk, if_false, passedOver_of_not_neg hk, List.getElem?_cons_succ]
        exact nodeAlong_eq entries rest (k - 1)

/-- A path counts the nodes of its lineage. -/
theorem node_eq_lineage (p : Path) (h : Heap) (k : Int64) : p.node h k = ((p.lineage h)[passedOver k]?).join := by
  rw [node, nodeAlong_eq, lineage, values, ← Stack.filterMap_valueIndices, List.filterMap_filterMap]
  rfl

end Path

/-! ## Leading position -/

/-- A node on the way up: the name it is stored under and the entry that follows it on the path. -/
structure Ancestor where
  node : Option NodeId
  name : Value
  next : Option Value
  deriving DecidableEq, Repr

/-- The nodes on a stack from the tip to the root; `next` is the entry before the stack's first. -/
def Stack.ancestors (g : Grammar) (h : Heap) : List Value → Option Value → List Ancestor
  | [], _ => []
  | [v], next => ((g.asNode h v).map fun n => ⟨n, .null, next⟩).toList
  | v :: name :: rest, next =>
    ((g.asNode h v).map fun n => ⟨n, name, next⟩).toList ++ ancestors g h rest (some name)

/-- The first of the ancestors prints the first token of an expression statement or, unless `onlyStatement`, of the
body of an arrow function. Reaching the last one counts as a statement. -/
def leadsFrom (h : Heap) (onlyStatement : Bool) : List Ancestor → Except Stop Bool
  | child :: parent :: rest =>
    match child.node, parent.node with
    | some c, some p => do
      match ← passage h c child.name p parent.next with
      | .open => leadsFrom h onlyStatement (parent :: rest)
      | .statement => return true
      | .body => return !onlyStatement
      | .closed => return false
    | _, _ => leadsFrom h onlyStatement (parent :: rest)
  | _ => .ok true

/-- What a step up says about the leading position of a child, given that of its parent. -/
def Passage.lead (b : Bool) (outer : Except Stop Bool) : Passage → Except Stop Bool
  | .open => outer
  | .statement => .ok true
  | .body => .ok !b
  | .closed => .ok false

/-- What follows the first ancestor on the path is not looked at. -/
theorem leadsFrom_next (b : Bool) (n : Option NodeId) (name : Value) (next next' : Option Value)
    (as : List Ancestor) : leadsFrom h b (⟨n, name, next⟩ :: as) = leadsFrom h b (⟨n, name, next'⟩ :: as) := by
  cases as with
  | nil => simp [leadsFrom]
  | cons a as => cases n <;> cases ha : a.node <;> simp [leadsFrom, ha]

/-- The absence of a node at the start is passed over. -/
theorem leadsFrom_none (b : Bool) (name : Value) (next : Option Value) (as : List Ancestor) :
    leadsFrom h b (⟨none, name, next⟩ :: as) = leadsFrom h b as := by
  cases as <;> simp [leadsFrom]

theorem leadsFrom_cons (b : Bool) (c n : NodeId) (name name' : Value) (next next' : Option Value)
    (as : List Ancestor) : leadsFrom h b (⟨some c, name, next⟩ :: ⟨some n, name', next'⟩ :: as) =
      (passage h c name n next').bind (Passage.lead b (leadsFrom h b (⟨some n, name', none⟩ :: as))) := by
  rw [← leadsFrom_next b (some n) name' next' none as]
  cases hp : passage h c name n next' with
  | error x => simp [leadsFrom, hp, bind, Except.bind]
  | ok r => cases r <;> simp [leadsFrom, hp, bind, Except.bind, Passage.lead, pure, Except.pure]

namespace Climb

variable {entries : List Value} {b : Bool}

/-- The last node, as the first of the ancestors still to be judged. -/
def last (c : Climb) : Ancestor := ⟨c.parent, c.parentName, none⟩

theorem leads_index (i : Nat) (is : List Nat) (c : Climb) : leads g h entries b (i :: is) c =
    ((c.enter g h entries i).judge h entries).bind
      (Passage.lead b (leads g h entries b is (c.enter g h entries i))) := by
  rw [leads]
  cases (c.enter g h entries i).judge h entries with
  | error x => rfl
  | ok r => cases r <;> rfl

/-- One entry of the way up, where the last two nodes have been judged open: an entry that is no node has them judged
again, with the same outcome, and a node is the next of the ancestors. -/
theorem leads_cons {i : Nat} {v : Value} {c : Climb} (is : List Nat) (as : List Ancestor) (hv : entries[i]? = some v)
    (hc : c.judge h entries = .ok .open)
    (hrest : ∀ c' : Climb, c'.judge h entries = .ok .open →
      leads g h entries b is c' = leadsFrom h b (c'.last :: as)) :
    leads g h entries b (i :: is) c = leadsFrom h b (c.last :: (((g.asNode h v).map fun n =>
      ⟨n, if 0 < i then (entries[i - 1]?).getD .null else .null, entries[i + 1]?⟩).toList ++ as)) := by
  rw [leads_index]
  cases hn : g.asNode h v with
  | none =>
    have he : c.enter g h entries i = c := by simp [enter, hv, hn]
    rw [he, hc]
    exact hrest c hc
  | some n =>
    generalize hname : (if 0 < i then (entries[i - 1]?).getD .null else Value.null) = name
    have he : c.enter g h entries i = ⟨n, name, i, c.parent, c.parentName⟩ := by simp [enter, hv, hn, hname]
    have hgo : ∀ c' : Climb, c' = ⟨n, name, i, c.parent, c.parentName⟩ → c'.judge h entries = .ok .open →
        leads g h entries b is c' = leadsFrom h b (⟨n, name, entries[i + 1]?⟩ :: as) := by
      rintro c' rfl hc'
      rw [hrest _ hc']
      exact leadsFrom_next b n name none _ as
    rw [he]
    simp only [Option.map_some, Option.toList_some, List.singleton_append, last]
    cases hchild : c.parent with
    | none =>
      rw [leadsFrom_none]
      exact hgo _ (by rw [hchild]) rfl
    | some child =>
      cases n with
      | none => exact hgo _ (by rw [hchild]) rfl
      | some parent =>
        rw [leadsFrom_cons, leadsFrom_next b (some parent) name none entries[i + 1]?]
        show (passage h child c.parentName parent entries[i + 1]?).bind _ = _
        cases hp : passage h child c.parentName parent entries[i + 1]? with
        | error x => rfl
        | ok r =>
          cases r with
          | «open» => exact hgo _ (by rw [hchild]) hp
          | statement | body | closed => rfl

/-- Going up the rest of a stack by index is going from the last node to the ancestors on the rest, as long as the last
two nodes have been judged open. -/
theorem leads_eq (b : Bool) : ∀ (front rest : List Value) (c : Climb),
    c.judge h (front ++ rest).reverse = .ok .open →
    leads g h (front ++ rest).reverse b (Stack.valueIndices rest.length) c =
      leadsFrom h b (c.last :: Stack.ancestors g h rest front.getLast?)
  | _, [], _, _ => rfl
  | front, [v], c, hc => by
    have hv : (front ++ [v]).reverse[0]? = some v := by simp
    have hnext : (front ++ [v]).reverse[0 + 1]? = front.getLast? := by
      simp [← List.head?_reverse, List.head?_eq_getElem?]
    have hstep := leads_cons (g := g) (b := b) [] [] hv hc fun _ _ => rfl
    rw [hnext] at hstep
    simpa [Stack.ancestors, Stack.valueIndices] using hstep
  | front, v :: name :: rest, c, hc => by
    have hentries : (front ++ v :: name :: rest).reverse = rest.reverse ++ (name :: v :: front.reverse) := by simp
    have hv : (front ++ v :: name :: rest).reverse[rest.length + 1]? = some v := by simp [hentries]
    have hname : (front ++ v :: name :: rest).reverse[rest.length]? = some name := by simp [hentries]
    have hnext : (front ++ v :: name :: rest).reverse[rest.length + 1 + 1]? = front.getLast? := by
      have hsub : rest.length + 1 + 1 - rest.reverse.length = 2 := by
        rw [List.length_reverse]
        omega
      rw [hentries, List.getElem?_append_right (by rw [List.length_reverse]; omega), hsub, ← List.head?_reverse,
        List.head?_eq_getElem?]
      rfl
    have hshift : front ++ v :: name :: rest = (front ++ [v, name]) ++ rest := by simp
    have hstep := leads_cons (g := g) (b := b) (Stack.valueIndices rest.length)
      (Stack.ancestors g h rest (some name)) hv hc fun c' hc' => by
      rw [hshift] at hc' ⊢
      rw [leads_eq b (front ++ [v, name]) rest c' hc']
      simp
    rw [hnext, Nat.add_sub_cancel, hname] at hstep
    simpa [Stack.ancestors, Stack.valueIndices] using hstep

end Climb

/-- Leading position is found going from each node of the stack to the next. -/
theorem Path.leads_eq (p : Path) (h : Heap) (b : Bool) :
    p.leads h b = leadsFrom h b (Stack.ancestors p.grammar h p.stack none) :=
  (Climb.leads_eq b [] p.stack {} rfl).trans (leadsFrom_none b _ _ _)

end Bracketing
