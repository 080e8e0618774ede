import Bracketing.Path.Tokens
import Bracketing.Proofs.Tree.TokenRange

/-!
# Tokens around a node

What a path tells about the tokens before and after a node whose range is known, said without indices: the last of the
tokens that start before the node and the first of those that run past it, unless the root of the path hides them.

- `previousToken_covering`, `nextToken_covering`: the two questions, for a node that has the tokens it covers;
- `attach_exact`: after tokens in source order have been attached to a tree, the range of every located node holds just
  the tokens that lie in it, and every path finds its neighbours.
-/

namespace Bracketing

open Bracketing.Source Bracketing.Tree Bracketing.Tree.Heap

namespace Path

variable {p : Path} {h : Heap} {tokens : List Token} {s : Span} {root : Location}

/-- The path starts from a node of its grammar that has this location. -/
def RootedAt (p : Path) (h : Heap) (root : Location) : Prop :=
  ∃ r, p.rootValue = .ok (.node r) ∧ p.grammar.isNode h (.node r) = true ∧ h.location? r = some root

theorem RootedAt.rootLocation (hr : p.RootedAt h root) : p.rootLocation h = .ok (some root) := by
  obtain ⟨r, hroot, hnode, hloc⟩ := hr
  have : p.grammar.asNode h (.node r) = some (some r) := by simp [Grammar.asNode, hnode]
  simp only [Path.rootLocation, hroot, bind, Except.bind, this, hloc]
  rfl

/-- A token of a range is told if the root admits it. -/
theorem tokenWithin_eq (hr : p.RootedAt h root) (i : Nat) (admits : Span → Token → Bool) :
    p.tokenWithin h (rangeOf tokens s) i admits = .ok (tokens[i]?.filter (admits root.span)) := by
  have hi : (rangeOf tokens s).tokens[i]?.join = tokens[i]? := by
    simp only [rangeOf, List.getElem?_map]
    cases tokens[i]? <;> rfl
  simp only [Path.tokenWithin, hi, hr.rootLocation, bind, Except.bind]
  cases tokens[i]? with
  | none => rfl
  | some t => simp [Option.filter, pure, Except.pure]

/-- Two tests that agree on the tokens admit the same ones. -/
theorem filter_token_congr {i : Nat} {f g : Token → Bool} (hfg : ∀ t ∈ tokens, f t = g t) :
    tokens[i]?.filter f = tokens[i]?.filter g := by
  cases ht : tokens[i]? with
  | none => rfl
  | some t => simp [Option.filter, hfg t (List.mem_of_getElem? ht)]

variable {n : Option NodeId} {loc : Location} (ht : InOrder tokens) (hs : s.Natural) (hroot : root.span.Natural)
  (hr : p.RootedAt h root) (hn : p.tokenRange h n = some (rangeOf tokens s))
include ht hs hroot hr hn

/-- The token before a node is the last that starts before it, unless that starts before the root. -/
theorem previousToken_covering : p.previousToken h n =
    .ok ((tokens.filter (·.startsBefore s)).getLast?.filter fun t => !t.startsBefore root.span) := by
  have hlen : (rangeOf tokens s).tokens.length = tokens.length := by simp [rangeOf]
  have hadmits : ∀ t ∈ tokens, decide (root.span.start.compare t.span.start ≤ 0) = !t.startsBefore root.span :=
    fun t hm => by simp [Position.compare_nonpos_iff hroot.1 (ht.natural t hm).1, Token.startsBefore]
  rw [Path.previousToken, hn]
  simp only [ht.rangeOf_first hs, hlen]
  have heq := ht.eq_runs s
  have hle := List.length_filter_le (·.startsBefore s) tokens
  generalize tokens.filter (·.startsBefore s) = before at heq hle ⊢
  by_cases hnil : before = []
  · simp [hnil]
  · have hpos := List.length_pos_iff.2 hnil
    have hlast : tokens[before.length - 1]? = before.getLast? := by
      rw [heq, List.append_assoc, List.getElem?_append_left (by omega), List.getLast?_eq_getElem?]
    have hnat : ((before.length : Int) - 1).toNat = before.length - 1 := by omega
    have hnot : (decide ((before.length : Int) ≤ 0) || decide ((tokens.length : Int) < before.length)) = false := by
      simp only [Bool.or_eq_false_iff, decide_eq_false_iff_not]
      omega
    rw [hnot, hnat, if_neg (by simp), tokenWithin_eq hr, filter_token_congr hadmits, hlast]

/-- The token after a node is the first that runs past it, unless that ends after the root. -/
theorem nextToken_covering : p.nextToken h n =
    .ok ((tokens.filter (·.runsPast s)).head?.filter (·.endsBy root.span)) := by
  have hlen : (rangeOf tokens s).tokens.length = tokens.length := by simp [rangeOf]
  have hadmits : ∀ t ∈ tokens, decide (t.span.stop.compare root.span.stop ≤ 0) = t.endsBy root.span :=
    fun t hm => by simp [Position.compare_nonpos_iff (ht.natural t hm).2 hroot.2, Token.endsBy]
  rw [Path.nextToken, hn]
  simp only [ht.rangeOf_stop hs, hlen]
  have heq := ht.eq_runs s
  generalize tokens.filter (·.startsBefore s) = before at heq ⊢
  generalize tokens.filter (·.liesIn s) = inside at heq ⊢
  generalize tokens.filter (·.runsPast s) = after at heq ⊢
  have hhead : tokens[before.length + inside.length]? = after.head? := by
    rw [heq, ← List.length_append, List.getElem?_append_right (Nat.le_refl _), Nat.sub_self, List.head?_eq_getElem?]
  by_cases hlt : before.length + inside.length < tokens.length
  · have hnat : ((before.length : Int) + inside.length).toNat = before.length + inside.length := by omega
    have hnot : (decide ((before.length : Int) + inside.length < 0) ||
        decide ((tokens.length : Int) ≤ before.length + inside.length)) = false := by
      simp only [Bool.or_eq_false_iff, decide_eq_false_iff_not]
      omega
    rw [hnot, hnat, if_neg (by simp), tokenWithin_eq hr, filter_token_congr hadmits, hhead]
  · have hnone : after.head? = none := by rw [← hhead, List.getElem?_eq_none_iff]; omega
    have hpast : (decide ((before.length : Int) + inside.length < 0) ||
        decide ((tokens.length : Int) ≤ before.length + inside.length)) = true := by
      simp only [Bool.or_eq_true, decide_eq_true_eq]
      omega
    rw [hpast, if_pos rfl, hnone]
    rfl

end Path

/-! ## After attaching tokens -/

/-- An index is in the range of a span just if the span encloses the token there. -/
theorem mem_rangeOf_iff {tokens : List Token} {s : Span} (ht : InOrder tokens) (hs : s.Natural) (i : Nat) :
    (rangeOf tokens s).first ≤ i ∧ (i : Int) < (rangeOf tokens s).stop ↔
      ∃ t, tokens[i]? = some t ∧ s.Encloses t.span := by
  rw [ht.rangeOf_first hs, ht.rangeOf_stop hs]
  have heq := ht.eq_runs s
  have hbefore : ∀ t ∈ tokens.filter (·.startsBefore s), ¬ s.Encloses t.span := by
    intro t hm hin
    exact hin.1 (by simpa [Token.startsBefore] using (List.mem_filter.1 hm).2)
  have hinside : ∀ t ∈ tokens.filter (·.liesIn s), s.Encloses t.span := by
    intro t hm
    simpa [Token.liesIn] using (List.mem_filter.1 hm).2
  have hafter : ∀ t ∈ tokens.filter (·.runsPast s), ¬ s.Encloses t.span := by
    intro t hm hin
    have hpast : ¬ t.span.start.Before s.start ∧ s.stop.Before t.span.stop := by
      simpa [Token.runsPast] using (List.mem_filter.1 hm).2
    exact hin.2 hpast.2
  generalize tokens.filter (·.startsBefore s) = before at heq hbefore ⊢
  generalize tokens.filter (·.liesIn s) = inside at heq hinside ⊢
  generalize tokens.filter (·.runsPast s) = after at heq hafter
  constructor
  · rintro ⟨hfirst, hstop⟩
    have hlt : i - before.length < inside.length := by omega
    refine ⟨inside[i - before.length], ?_, hinside _ (List.getElem_mem hlt)⟩
    rw [heq, List.append_assoc, List.getElem?_append_right (by omega), List.getElem?_append_left hlt,
      List.getElem?_eq_getElem hlt]
  · rintro ⟨t, hi, hin⟩
    rw [heq, List.append_assoc] at hi
    by_cases hfirst : i < before.length
    · rw [List.getElem?_append_left hfirst] at hi
      exact absurd hin (hbefore t (List.mem_of_getElem? hi))
    rw [List.getElem?_append_right (by omega)] at hi
    by_cases hstop : i - before.length < inside.length
    · omega
    rw [List.getElem?_append_right (by omega)] at hi
    exact absurd hin (hafter t (List.mem_of_getElem? hi))

/-- Once tokens in source order have been attached to an acyclic tree, the tokens in the range of a located node are
those that lie in it, after those that start before it and before those that run past it; and a path whose root is located
finds the last of the first and the first of the last, unless its root does not reach that far. -/
theorem attach_exact {h : Heap} {root : NodeId} {tokens : List Token} (hroot : h.Acyclic (.node root))
    (hspans : ∀ n loc, h.Below (.node root) (.node n) → h.LocatedAt n loc → loc.span.Natural) (ht : InOrder tokens) :
    ∃ h', h.attach (.node root) (tokens.map some) = (h', none) ∧
      ∀ n loc, h.Below (.node root) (.node n) → h.LocatedAt n loc →
        ∃ r, h'.location? n = some ⟨loc.span, some r⟩ ∧
          (∀ i : Nat, r.first ≤ i ∧ (i : Int) < r.stop ↔ ∃ t, tokens[i]? = some t ∧ loc.span.contains t.span = true) ∧
          ∃ before inside after, tokens = before ++ inside ++ after ∧ r.first = before.length ∧
            r.stop = before.length + inside.length ∧ before = tokens.filter (·.startsBefore loc.span) ∧
            inside = tokens.filter (·.liesIn loc.span) ∧ after = tokens.filter (·.runsPast loc.span) ∧
            ∀ (p : Path) (whole : Location) (arg : Option NodeId), p.RootedAt h' whole → whole.span.Natural →
              arg.or (p.node h') = some n →
              p.previousToken h' arg = .ok (before.getLast?.filter fun t => !t.startsBefore whole.span) ∧
              p.nextToken h' arg = .ok (after.head?.filter (·.endsBy whole.span)) := by
  obtain ⟨h', ns, hattach, hattached, hmem⟩ := hroot.attached tokens
  refine ⟨h', hattach, fun n loc hbelow hloc => ?_⟩
  have hs := hspans n loc hbelow hloc
  have hloc' := (hattached.located n ((hmem n).2 hbelow) loc hloc).location?
  have hcontains : ∀ (i : Nat) (t : Token), tokens[i]? = some t →
      (loc.span.Encloses t.span ↔ loc.span.contains t.span = true) := by
    intro i t ht'
    exact (Span.contains_iff_encloses hs (ht.natural t (List.mem_of_getElem? ht'))).symm
  refine ⟨rangeOf tokens loc.span, hloc', fun i => ?_, _, _, _, ht.eq_runs loc.span, ht.rangeOf_first hs,
    ht.rangeOf_stop hs, rfl, rfl, rfl, fun p whole arg hr hwhole harg => ?_⟩
  · rw [mem_rangeOf_iff ht hs]
    exact exists_congr fun t => and_congr_right (hcontains i t)
  have hrange : p.tokenRange h' arg = some (rangeOf tokens loc.span) := by
    simp [Path.tokenRange, harg, hloc', Location.covering]
  exact ⟨Path.previousToken_covering ht hs hwhole hr hrange, Path.nextToken_covering ht hs hwhole hr hrange⟩

/-- A stretch of the first line. -/
def stretch (start stop : Int64) : Span where
  start := { line := 1, column := start }
  stop := { line := 1, column := stop }

/-- The tree of `(a)+b`, where the sum is located and its operands are as well. -/
def parenSum : Heap where
  nodes := #[{ tag := "Identifier", location := some ⟨0⟩ }, { tag := "Identifier", location := some ⟨1⟩ },
    { tag := "BinaryExpression", fields := .ofEntries [("left", .node ⟨0⟩), ("right", .node ⟨1⟩)],
      location := some ⟨2⟩ }]
  locations := #[{ span := stretch 1 2 }, { span := stretch 4 5 }, { span := stretch 0 5 }]

/-- The tokens of `(a)+b`. -/
def parenSumTokens : List Token :=
  [{ value := "(", span := stretch 0 1 }, { value := "a", span := stretch 1 2 }, { value := ")", span := stretch 2 3 },
    { value := "+", span := stretch 3 4 }, { value := "b", span := stretch 4 5 }]

theorem acyclic_parenSum : parenSum.Acyclic (.node ⟨2⟩) :=
  acyclic_of_measure nodePlace (by decide) (by decide) _

theorem natural_parenSum (n : NodeId) (loc : Location) (hn : parenSum.LocatedAt n loc) : loc.span.Natural := by
  obtain ⟨l, -, hl⟩ := hn
  have hall : ∀ x ∈ parenSum.locations.toList, x.span.Natural := by decide
  exact hall loc (Array.mem_toList_iff.2 (Array.mem_of_getElem? hl))

theorem inOrder_parenSumTokens : InOrder parenSumTokens := ⟨by decide, by decide, by decide⟩

theorem attach_exact_parenSum : InOrder parenSumTokens ∧
    ∃ h', parenSum.attach (.node ⟨2⟩) (parenSumTokens.map some) = (h', none) ∧
      (∃ r, h'.location? ⟨0⟩ = some ⟨stretch 1 2, some r⟩ ∧ ∀ i : Nat,
        r.first ≤ i ∧ (i : Int) < r.stop ↔ ∃ t, parenSumTokens[i]? = some t ∧ (stretch 1 2).contains t.span = true) ∧
      (Path.new (.node ⟨2⟩)).previousToken h' (some ⟨0⟩) = .ok parenSumTokens[0]? ∧
      (Path.new (.node ⟨2⟩)).nextToken h' (some ⟨0⟩) = .ok parenSumTokens[2]? := by
  refine ⟨inOrder_parenSumTokens, ?_⟩
  obtain ⟨h', hattach, hall⟩ := attach_exact acyclic_parenSum (fun n loc _ => natural_parenSum n loc)
    inOrder_parenSumTokens
  have hmember : Value.node ⟨0⟩ ∈ parenSum.members (.node ⟨2⟩) := by decide
  have hleft : parenSum.Below (.node ⟨2⟩) (.node ⟨0⟩) := .single hmember
  obtain ⟨r, hloc, hrange, before, inside, after, -, -, -, hb, -, ha, hpaths⟩ :=
    hall ⟨0⟩ { span := stretch 1 2 } hleft ⟨⟨0⟩, rfl, rfl⟩
  obtain ⟨r', hloc', -⟩ := hall ⟨2⟩ { span := stretch 0 5 } .refl ⟨⟨2⟩, rfl, rfl⟩
  -- attaching changes no node, so that the root is a node still
  obtain ⟨h'', ns, hattach', hattached, -⟩ := acyclic_parenSum.attached parenSumTokens
  obtain rfl : h' = h'' := by simpa [hattach] using hattach'
  have htag : (h'.node ⟨2⟩).tag = "BinaryExpression" := by rw [hattached.node_eq]; rfl
  have hnode : (Path.new (.node ⟨2⟩)).grammar.isNode h' (.node ⟨2⟩) = true := by
    change decide ((h'.node ⟨2⟩).tag ≠ "") = true
    simp [htag]
  have hwhole : (stretch 0 5).Natural := by decide
  obtain ⟨hprev, hnext⟩ := hpaths (.new (.node ⟨2⟩)) _ (some ⟨0⟩) ⟨⟨2⟩, rfl, hnode, hloc'⟩ hwhole rfl
  refine ⟨h', hattach, ⟨r, hloc, hrange⟩, ?_, ?_⟩
  · rw [hprev, hb]
    rfl
  · rw [hnext, ha]
    rfl

end Bracketing
