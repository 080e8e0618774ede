import Bracketing.Proofs.Tree.Acyclic

/-!
# Plain trees and what visiting them lists

A tree is plain if it is acyclic, all its nodes have a tag, and none of their fields goes by a name that stands for
something else. What a field name gives then is what the field holds (`map_get_keys`).

* **Lists** (`Lists`): the nodes that a visit in preorder notes, on top of those seen before. A node is noted before its
  members (`lists_entered`), and members one after another (`ListsAll.cons`).
* **Counting** (`count_eq_length`): the count of a value is the number of nodes in its preorder.
-/

namespace Bracketing.Tree

/-- The value under a name that has been set is the one of its entry. -/
theorem Record.map_get_keys (r : Record) : r.keys.map r.get = r.entries.map Prod.snd := by
  rw [Record.keys, List.map_map]
  refine List.map_congr_left fun e he => ?_
  have hl : r.entries.lookup e.1 = some e.2 := by
    have hd := r.distinct
    generalize r.entries = es at he hd
    induction es with
    | nil => cases he
    | cons a es ih =>
      obtain ⟨ha, hd⟩ := List.nodup_cons.1 hd
      rcases List.mem_cons.1 he with rfl | he
      · exact List.lookup_cons_self
      · have hne : e.1 ≠ a.1 := fun h => ha (h ▸ List.mem_map_of_mem he)
        rw [List.lookup_cons, beq_eq_false_iff_ne.2 hne]
        exact ih he hd
  simp [Record.get, Record.get?, hl]

namespace Heap

variable {h : Heap}

/-! ## Plain trees -/

/-- Below the value there is no cycle, no node without a tag, and no field with a name that stands for something else. -/
structure Plain (h : Heap) (v : Value) : Prop where
  acyclic : h.Acyclic v
  tagged : ∀ n, h.Below v (.node n) → (h.node n).tag ≠ ""
  fields : ∀ n, h.Below v (.node n) → ∀ k ∈ (h.node n).fields.keys, k ≠ "type" ∧ k ≠ "loc" ∧ k ≠ "extra"

theorem Plain.member {v w : Value} (hv : h.Plain v) (hw : h.Member v w) : h.Plain w where
  acyclic := hv.acyclic.member hw
  tagged n hn := hv.tagged n (.head hw hn)
  fields n hn := hv.fields n (.head hw hn)

/-- The names of a node give what its fields hold. -/
theorem map_get_keys {n : NodeId} (hk : ∀ k ∈ (h.node n).fields.keys, k ≠ "type" ∧ k ≠ "loc" ∧ k ≠ "extra") :
    (h.node n).fields.keys.map (h.get n) = h.members (.node n) := by
  refine Eq.trans (List.map_congr_left fun k hm => ?_) (Record.map_get_keys _)
  obtain ⟨ht, hl, hx⟩ := hk k hm
  simp [get, ht, hl, hx]

/-- Every chain of members from the value has fewer links. -/
def Shallow (h : Heap) (depth : Nat) (v : Value) : Prop := ∀ ws, (v :: ws).IsChain h.Member → ws.length < depth

theorem Acyclic.shallow {v : Value} {depth : Nat} (hv : h.Acyclic v) (hd : h.extent < depth) : h.Shallow depth v :=
  fun _ hc => Nat.lt_of_le_of_lt (chain_length_le hv hc) hd

theorem Shallow.not_zero {v : Value} (hv : h.Shallow 0 v) : False :=
  Nat.not_lt_zero _ (hv [] (List.isChain_singleton v))

theorem Shallow.member {v w : Value} {depth : Nat} (hv : h.Shallow (depth + 1) v) (hw : h.Member v w) :
    h.Shallow depth w := by
  intro ws hc
  have := hv (w :: ws) (.cons_cons hw hc)
  simpa using this

/-! ## The nodes listed -/

section Lists

variable {f : NodeId → Bool} {depth : Nat}

/-- The visit that notes every node and enters those that pass a test. -/
def note (f : NodeId → Bool) (seen : List NodeId) (n : NodeId) : Bool × List NodeId := (f n, n :: seen)

/-- Visiting the value notes these nodes, on top of those seen before. -/
def Lists (h : Heap) (f : NodeId → Bool) (depth : Nat) (v : Value) (ns : List NodeId) : Prop :=
  ∀ seen, h.inspectWithin (note f) depth v seen = some (ns.reverse ++ seen)

/-- Visiting the values one after another notes these nodes, on top of those seen before. -/
def ListsAll (h : Heap) (f : NodeId → Bool) (depth : Nat) (vs : List Value) (ns : List NodeId) : Prop :=
  ∀ seen, vs.foldlM (fun s v => h.inspectWithin (note f) depth v s) seen = some (ns.reverse ++ seen)

theorem ListsAll.nil : h.ListsAll f depth [] [] := fun _ => rfl

theorem ListsAll.cons {v : Value} {vs : List Value} {ns ms : List NodeId} (hv : h.Lists f depth v ns)
    (hvs : h.ListsAll f depth vs ms) : h.ListsAll f depth (v :: vs) (ns ++ ms) := by
  intro seen
  simp only [List.foldlM_cons, hv seen, Option.bind_eq_bind, Option.bind_some]
  rw [hvs, List.reverse_append, List.append_assoc]

theorem lists_entered {n : NodeId} {ns : List NodeId} (hn : f n = true)
    (hm : h.ListsAll f depth (h.members (.node n)) ns) : h.Lists f (depth + 1) (.node n) (n :: ns) := by
  intro seen
  have := hm (n :: seen)
  rw [members, List.foldlM_map] at this
  simp only [inspectWithin, note, hn, if_true]
  rw [List.reverse_cons, List.append_assoc]
  exact this

theorem lists_passed {n : NodeId} (hn : f n = false) : h.Lists f (depth + 1) (.node n) [n] := by
  intro seen
  simp [inspectWithin, note, hn]

theorem lists_list {l : ListId} {ns : List NodeId} (hm : h.ListsAll f depth (h.members (.list l)) ns) :
    h.Lists f (depth + 1) (.list l) ns := hm

/-- What is neither a node nor a list holds no node. -/
theorem lists_other {v : Value} (hn : ∀ n, v ≠ .node n) (hl : ∀ l, v ≠ .list l) : h.Lists f (depth + 1) v [] := by
  intro seen
  cases v with
  | node n => exact absurd rfl (hn n)
  | list l => exact absurd rfl (hl l)
  | _ => rfl

theorem Lists.preorderWhere_eq {v : Value} {ns : List NodeId} (hv : h.Lists f (h.extent + 1) v ns) :
    h.preorderWhere f v = some ns := by
  have : h.inspect (fun seen n => (f n, n :: seen)) v [] = some ns.reverse := (hv []).trans (by rw [List.append_nil])
  simp [preorderWhere, this]

end Lists

/-! ## All nodes below a value -/

theorem below_node_iff {v : Value} {n : NodeId} :
    h.Below v (.node n) ↔ v = .node n ∨ ∃ w ∈ h.members v, h.Below w (.node n) :=
  Relation.ReflTransGen.cases_head_iff

/-- No node is below both values. -/
def Apart (h : Heap) (a b : Value) : Prop := ∀ n, h.Below a (.node n) → ¬ h.Below b (.node n)

/-- No object is below a member of its own, and no node is below two members of an object. -/
inductive Unshared (h : Heap) : Value → Prop
  | intro {v : Value} (ha : ∀ w ∈ h.members v, ¬ h.Below w v) (hd : (h.members v).Pairwise h.Apart)
    (hm : ∀ w ∈ h.members v, Unshared h w) : Unshared h v

/-- What is listed of a shallow value are the nodes below it, each of them once if none is shared. -/
theorem exists_lists : ∀ {depth : Nat} {v : Value}, h.Shallow depth v → ∃ ns, h.Lists (fun _ => true) depth v ns ∧
    (∀ n, n ∈ ns ↔ h.Below v (.node n)) ∧ (h.Unshared v → ns.Nodup)
  | 0, _, hv => hv.not_zero.elim
  | depth + 1, v, hv => by
    have hall : ∀ vs : List Value, (∀ w ∈ vs, h.Shallow depth w) → ∃ ns, h.ListsAll (fun _ => true) depth vs ns ∧
        (∀ n, n ∈ ns ↔ ∃ w ∈ vs, h.Below w (.node n)) ∧
        ((∀ w ∈ vs, h.Unshared w) → vs.Pairwise h.Apart → ns.Nodup) := by
      intro vs
      induction vs with
      | nil => exact fun _ => ⟨[], .nil, by simp, fun _ _ => .nil⟩
      | cons w vs ih =>
        intro hvs
        obtain ⟨ns, hns, hmem, hnd⟩ := exists_lists (hvs w List.mem_cons_self)
        obtain ⟨ms, hms, hmem', hnd'⟩ := ih fun u hu => hvs u (List.mem_cons_of_mem w hu)
        refine ⟨ns ++ ms, ListsAll.cons hns hms, fun n => by simp [hmem, hmem'], fun hu hd => ?_⟩
        obtain ⟨hd, hd'⟩ := List.pairwise_cons.1 hd
        refine List.nodup_append.2 ⟨hnd (hu w List.mem_cons_self),
          hnd' (fun u hm => hu u (List.mem_cons_of_mem w hm)) hd', ?_⟩
        rintro n hn _ hm rfl
        obtain ⟨u, hu, hb⟩ := (hmem' n).1 hm
        exact hd u hu n ((hmem n).1 hn) hb
    obtain ⟨ns, hns, hmem, hnd⟩ := hall (h.members v) fun w hw => hv.member hw
    have hnodup : h.Unshared v → ns.Nodup := fun ⟨_, hd, hm⟩ => hnd hm hd
    cases v with
    | node n =>
      refine ⟨n :: ns, lists_entered rfl hns, fun m => by rw [below_node_iff]; simp [hmem, eq_comm], fun hu => ?_⟩
      refine List.nodup_cons.2 ⟨fun hn => ?_, hnodup hu⟩
      obtain ⟨w, hw, hb⟩ := (hmem n).1 hn
      cases hu with
      | intro ha _ _ => exact ha w hw hb
    | list l => exact ⟨ns, lists_list hns, fun m => by rw [below_node_iff]; simp [hmem], hnodup⟩
    | _ => exact ⟨[], lists_other (by simp) (by simp), fun m => by rw [below_node_iff]; simp [members], fun _ => .nil⟩

/-- The preorder of an acyclic value holds the nodes below it, each of them once if none is shared. -/
theorem Acyclic.exists_preorder {v : Value} (hv : h.Acyclic v) : ∃ ns, h.preorder v = some ns ∧
    (∀ n, n ∈ ns ↔ h.Below v (.node n)) ∧ (h.Unshared v → ns.Nodup) := by
  obtain ⟨ns, hns, hmem⟩ := exists_lists (hv.shallow (Nat.lt_succ_self _))
  exact ⟨ns, hns.preorderWhere_eq, hmem⟩

/-! ## Counting -/

section Count

variable {σ τ : Type}

theorem foldlM_map_state {α : Type} {f : σ → α → Option σ} {f' : τ → α → Option τ} (φ : σ → τ)
    (hf : ∀ s a, f' (φ s) a = (f s a).map φ) : ∀ (as : List α) (s : σ),
    as.foldlM f' (φ s) = (as.foldlM f s).map φ
  | [], _ => rfl
  | a :: as, s => by
    rw [List.foldlM_cons, List.foldlM_cons, hf]
    cases f s a with
    | none => rfl
    | some t => exact foldlM_map_state φ hf as t

/-- A visit that sees less of the state does the same to what it sees. -/
theorem inspectWithin_map (visit : σ → NodeId → Bool × σ) (visit' : τ → NodeId → Bool × τ) (φ : σ → τ)
    (hφ : ∀ s n, visit' (φ s) n = ((visit s n).1, φ (visit s n).2)) : ∀ (depth : Nat) (v : Value) (s : σ),
    h.inspectWithin visit' depth v (φ s) = (h.inspectWithin visit depth v s).map φ
  | 0, _, _ => rfl
  | depth + 1, v, s => by
    have ih := inspectWithin_map visit visit' φ hφ depth
    cases v with
    | node n =>
      simp only [inspectWithin, hφ]
      split
      · exact foldlM_map_state φ (fun s e => ih e.2 s) _ _
      · rfl
    | list l => exact foldlM_map_state φ (fun s v => ih v s) _ _
    | _ => rfl

/-- The count of a value is the number of nodes in its preorder. -/
theorem count_eq_length (v : Value) : h.count v = (h.preorder v).map List.length := by
  have hmap := inspectWithin_map (h := h) (fun seen n => (true, n :: seen)) (fun s _ => (true, s + 1)) List.length
    (fun _ _ => rfl) (h.extent + 1) v []
  refine hmap.trans ?_
  simp only [preorder, preorderWhere, inspect, Option.map_map]
  congr 1
  funext ns
  simp

end Count

end Heap

end Bracketing.Tree
