import Bracketing.Proofs.Report.Tour
import Bracketing.Proofs.Verdict.Unbroken

/-!
# Accessors identify rows

An accessor can be read back as long as no name holds one of the signs that separate names. Where one name ends, the
next begins with a point or a bracket, and an index ends with the bracket that closes it.

- `spelled_append_inj`: the first of the names that follow one another in a text is known from the text;
- `accessor_injective`: so names are known from their accessor;
- `Reached.eq_of_names`: and a stack that a walk comes to is known from its names;
- `accessor_identifies`: so no two rows of a report have the same accessor.
-/

namespace Bracketing

open Bracketing.Tree Stack

variable {g : Grammar} {h : Heap} {n m : Value} {ns ms : List Value} {α : Type}

/-! ## Reading an accessor back -/

/-- A name that does not hold the signs which an accessor puts between names: an index, or a text that is not empty and
has no point, opening bracket or dollar sign. -/
def PlainName : Value → Prop
  | .index _ => True
  | .str s => s ≠ "" ∧ ∀ c ∈ s.toList, c ≠ '.' ∧ c ≠ '[' ∧ c ≠ '$'
  | _ => False

/-- A name as it is written after others. -/
def spelled : Value → List Char
  | .index i => '[' :: (toString i).toList ++ [']']
  | name => '.' :: name.text.toList

/-- The signs with which a further name begins. -/
def Sign (c : Char) : Prop := c = '.' ∨ c = '['

theorem sign_of_head_spelled (ns : List Value) : ∀ c ∈ (ns.flatMap spelled).head?, Sign c := by
  cases ns with
  | nil => simp
  | cons n ns => cases n <;> simp [Sign, spelled]

theorem PlainName.not_sign {s : String} (hs : PlainName (.str s)) : ∀ c ∈ s.toList, ¬ Sign c := by
  rintro c hc (rfl | rfl)
  · exact (hs.2 _ hc).1 rfl
  · exact (hs.2 _ hc).2.1 rfl

/-- A numeral is its digits, after a sign if the number is negative. -/
theorem toList_toString (i : Int) : (toString i).toList =
    if 0 ≤ i then Nat.toDigits 10 i.toNat else '-' :: Nat.toDigits 10 (-i).toNat := by
  rw [Int.toString_eq_repr, Int.repr_eq_if]
  split <;> simp

theorem not_mem_toDigits {c : Char} (hc : c.isDigit = false) (k : Nat) : c ∉ Nat.toDigits 10 k := by
  intro hk
  rw [Nat.isDigit_of_mem_toDigits (by omega) (by omega) hk] at hc
  cases hc

/-- The numeral of an index does not hold the bracket that closes it. -/
theorem bracket_not_mem_toString (i : Int) : ']' ∉ (toString i).toList := by
  have hdigits := not_mem_toDigits (c := ']') (by decide)
  rw [toList_toString]
  split <;> simp [hdigits]

/-- An index is known from its numeral. -/
theorem eq_of_toList_toString {i j : Int} (he : (toString i).toList = (toString j).toList) : i = j := by
  have hdigits : ∀ k l, Nat.toDigits 10 k = Nat.toDigits 10 l → k = l := by
    intro k l hkl
    rw [← Nat.ofDigitChars_ten_toDigits (n := k), hkl, Nat.ofDigitChars_ten_toDigits]
  have hsign := not_mem_toDigits (c := '-') (by decide)
  rw [toList_toString, toList_toString] at he
  split at he <;> split at he
  · have := hdigits _ _ he
    omega
  · exact absurd (he ▸ List.mem_cons_self) (hsign i.toNat)
  · exact absurd (he.symm ▸ List.mem_cons_self) (hsign j.toNat)
  · have := hdigits _ _ (List.cons.inj he).2
    omega

/-- Two texts without a sign that are each followed by one, or by nothing, end at the same place. -/
theorem append_inj_of_sign {sign : Char → Prop} {cs ds rest rest' : List Char} (hc : ∀ c ∈ cs, ¬ sign c)
    (hd : ∀ c ∈ ds, ¬ sign c) (hr : ∀ c ∈ rest.head?, sign c) (hr' : ∀ c ∈ rest'.head?, sign c)
    (he : cs ++ rest = ds ++ rest') : cs = ds ∧ rest = rest' := by
  induction cs generalizing ds with
  | nil =>
    cases ds with
    | nil => exact ⟨rfl, he⟩
    | cons d ds =>
      rw [List.nil_append] at he
      exact absurd (hr d (by simp [he])) (hd d List.mem_cons_self)
  | cons c cs ih =>
    cases ds with
    | nil =>
      rw [List.nil_append] at he
      exact absurd (hr' c (by simp [← he])) (hc c List.mem_cons_self)
    | cons d ds =>
      rw [List.cons_append, List.cons_append] at he
      obtain ⟨rfl, htail⟩ := List.cons.inj he
      obtain ⟨rfl, hrest⟩ := ih (fun c hm => hc c (List.mem_cons_of_mem _ hm))
        (fun c hm => hd c (List.mem_cons_of_mem _ hm)) htail
      exact ⟨rfl, hrest⟩

/-- The first of the names in a text is known from it. -/
theorem spelled_append_inj {rest rest' : List Char} (hn : PlainName n) (hm : PlainName m)
    (hr : ∀ c ∈ rest.head?, Sign c) (hr' : ∀ c ∈ rest'.head?, Sign c)
    (he : spelled n ++ rest = spelled m ++ rest') : n = m ∧ rest = rest' := by
  cases n with
  | index i =>
    cases m with
    | index j =>
      have he : (toString i).toList ++ ']' :: rest = (toString j).toList ++ ']' :: rest' := by
        simpa [spelled] using he
      have hclosed : ∀ k : Int, ∀ c ∈ (toString k).toList, ¬ c = ']' := by
        rintro k c hc rfl
        exact bracket_not_mem_toString k hc
      obtain ⟨hij, hrest⟩ := append_inj_of_sign (hclosed i) (hclosed j) (by simp) (by simp) he
      exact ⟨congrArg _ (eq_of_toList_toString hij), List.cons.inj hrest |>.2⟩
    | str s => simp [spelled] at he
    | _ => exact hm.elim
  | str s =>
    cases m with
    | index j => simp [spelled] at he
    | str s' =>
      have he : s.toList ++ rest = s'.toList ++ rest' := by simpa [spelled, Value.text] using he
      obtain ⟨hs, hrest⟩ := append_inj_of_sign hn.not_sign hm.not_sign hr hr' he
      exact ⟨congrArg _ (String.toList_inj.1 hs), hrest⟩
    | _ => exact hm.elim
  | _ => exact hn.elim

theorem flatMap_spelled_injective : ∀ {ns ms : List Value}, (∀ n ∈ ns, PlainName n) → (∀ m ∈ ms, PlainName m) →
    ns.flatMap spelled = ms.flatMap spelled → ns = ms
  | [], [], _, _, _ => rfl
  | [], m :: ms, _, _, he => by cases m <;> simp [spelled] at he
  | n :: ns, [], _, _, he => by cases n <;> simp [spelled] at he
  | n :: ns, m :: ms, hn, hm, he => by
    obtain ⟨hn, hns⟩ := List.forall_mem_cons.1 hn
    obtain ⟨hm, hms⟩ := List.forall_mem_cons.1 hm
    rw [List.flatMap_cons, List.flatMap_cons] at he
    obtain ⟨rfl, hrest⟩ := spelled_append_inj hn hm (sign_of_head_spelled ns) (sign_of_head_spelled ms) he
    rw [flatMap_spelled_injective hns hms hrest]

/-- What is written already stays, and the names follow. -/
theorem toList_foldl_extendAccessor {written : String} (hw : written ≠ "") :
    (ns.foldl Path.extendAccessor written).toList = written.toList ++ ns.flatMap spelled := by
  induction ns generalizing written with
  | nil => simp
  | cons n ns ih =>
    have hn : (Path.extendAccessor written n).toList = written.toList ++ spelled n := by
      cases n <;> simp [Path.extendAccessor, spelled, hw]
    have hne : Path.extendAccessor written n ≠ "" := by
      intro hx
      rw [hx] at hn
      cases n <;> simp [spelled] at hn
    rw [List.foldl_cons, ih hne, hn, List.flatMap_cons, List.append_assoc]

/-- The first of the names has no point before it. -/
def leading : Value → List Char
  | .str s => s.toList
  | name => spelled name

theorem toList_extendAccessor_empty (hn : PlainName n) : (Path.extendAccessor "" n).toList = leading n := by
  cases n with
  | index i => simp [Path.extendAccessor, leading, spelled]
  | str s => simp [Path.extendAccessor, leading, Value.text]
  | _ => exact hn.elim

/-- The first sign of an accessor tells whether its first name is an index, and that there is a name at all. -/
theorem PlainName.exists_leading (hn : PlainName n) :
    ∃ c cs, leading n = c :: cs ∧ c ≠ '$' ∧ (c = '[' ↔ ∃ i, n = .index i) := by
  cases n with
  | index i => exact ⟨'[', (toString i).toList ++ [']'], rfl, by decide, by simp⟩
  | str s =>
    have hs : s.toList ≠ [] := fun hx => hn.1 (String.toList_inj.1 hx)
    obtain ⟨c, cs, hs⟩ := List.exists_cons_of_ne_nil hs
    have hc := hn.2 c (by simp [hs])
    exact ⟨c, cs, hs, hc.2.2, by simp [hc.2.1]⟩
  | _ => exact hn.elim

theorem toList_accessor_cons (hn : PlainName n) (ns : List Value) :
    (Path.accessor (n :: ns)).toList = leading n ++ ns.flatMap spelled := by
  have hfirst := toList_extendAccessor_empty hn
  obtain ⟨c, cs, hc, -⟩ := hn.exists_leading
  have hne : Path.extendAccessor "" n ≠ "" := by
    intro hx
    simp [hx, hc] at hfirst
  have hall : (ns.foldl Path.extendAccessor (Path.extendAccessor "" n)).toList = leading n ++ ns.flatMap spelled := by
    rw [toList_foldl_extendAccessor hne, hfirst]
  have hwritten : ns.foldl Path.extendAccessor (Path.extendAccessor "" n) ≠ "" := by
    intro hx
    simp [hx, hc] at hall
  unfold Path.accessor
  rw [List.foldl_cons]
  dsimp only
  rw [if_neg hwritten, hall]

theorem accessor_cons_ne_dollar (hn : PlainName n) : Path.accessor (n :: ns) ≠ "$" := by
  intro hx
  have hlist := toList_accessor_cons hn ns
  obtain ⟨c, cs, hc, hdollar, -⟩ := hn.exists_leading
  rw [hx, hc] at hlist
  exact hdollar (List.cons.inj hlist).1.symm

/-- Names are known from their accessor. -/
theorem accessor_injective (hns : ∀ n ∈ ns, PlainName n) (hms : ∀ m ∈ ms, PlainName m)
    (he : Path.accessor ns = Path.accessor ms) : ns = ms := by
  cases ns with
  | nil =>
    cases ms with
    | nil => rfl
    | cons m ms => exact absurd he.symm (accessor_cons_ne_dollar (hms m List.mem_cons_self))
  | cons n ns =>
    cases ms with
    | nil => exact absurd he (accessor_cons_ne_dollar (hns n List.mem_cons_self))
    | cons m ms =>
      have hn := hns n List.mem_cons_self
      have hm := hms m List.mem_cons_self
      have hlist := congrArg String.toList he
      rw [toList_accessor_cons hn, toList_accessor_cons hm] at hlist
      apply flatMap_spelled_injective hns hms
      have hhead : (∃ i, n = .index i) ↔ ∃ i, m = .index i := by
        obtain ⟨c, cs, hc, -, hindex⟩ := hn.exists_leading
        obtain ⟨d, ds, hd, -, hindex'⟩ := hm.exists_leading
        rw [hc, hd] at hlist
        rw [← hindex, ← hindex', (List.cons.inj hlist).1]
      -- what an accessor lacks is the point before its first name, if that is a text
      cases n with
      | index i =>
        obtain ⟨j, rfl⟩ := hhead.1 ⟨i, rfl⟩
        exact hlist
      | str s =>
        cases m with
        | str s' => exact congrArg ('.' :: ·) hlist
        | index j => simp at hhead
        | _ => exact hm.elim
      | _ => exact hn.elim

/-! ## The stacks of a walk -/

/-- A child of a stack has a key of the node at the tip for its name, or an index. -/
theorem name_of_mem_children {x st : List Value} (hx : x ∈ children h st) : ∃ value name, x = value :: name :: st ∧
    ((∃ c key rest, st = .node c :: rest ∧ name = .str key ∧ key ∈ (h.node c).fields.keys) ∨
      ∃ i, name = .index i) := by
  unfold children at hx
  split at hx
  · rename_i c rest
    obtain ⟨key, hkey, rfl⟩ := List.mem_map.1 hx
    exact ⟨_, _, rfl, .inl ⟨c, key, rest, rfl, rfl, (List.mem_filter.1 hkey).1⟩⟩
  · obtain ⟨i, -, rfl⟩ := List.mem_map.1 hx
    exact ⟨_, _, rfl, .inr ⟨i, rfl⟩⟩
  · cases hx

/-- All fields of nodes below the value have plain names. -/
def PlainFields (h : Heap) (root : Value) : Prop :=
  ∀ c, h.Below root (.node c) → ∀ key ∈ (h.node c).fields.keys, PlainName (.str key)

theorem Reached.plainName {root : Value} {x : List Value} (hp : PlainFields h root) (hx : Reached g h [root] x) :
    ∀ n ∈ Stack.names x, PlainName n := by
  induction hx with
  | start => simp [Stack.names]
  | @child st x hst hx _ ih =>
    obtain ⟨value, name, rfl, hname⟩ := name_of_mem_children hx
    refine List.forall_mem_cons.2 ⟨?_, ih⟩
    rcases hname with ⟨c, key, rest, rfl, rfl, hkey⟩ | ⟨i, rfl⟩
    · apply hp c _ key hkey
      obtain ⟨earlier, hv⟩ := values_cons (.node c) rest
      exact hst.below_root rfl (.node c) (by simp [hv])
    · trivial

/-- A stack that a walk comes to is known from its names: they lead to its values. -/
theorem Reached.eq_of_names {root : Value} {x y : List Value} (hx : Reached g h [root] x) (hy : Reached g h [root] y)
    (he : Stack.names x = Stack.names y) : x = y := by
  induction hx generalizing y with
  | start =>
    cases hy with
    | start => rfl
    | child _ hy _ =>
      obtain ⟨value, name, rfl, -⟩ := name_of_mem_children hy
      simp [Stack.names] at he
  | @child st x hst hx _ ih =>
    obtain ⟨tip, rest, rfl⟩ := List.exists_cons_of_ne_nil (hst.trail (.root root)).ne_nil
    obtain ⟨name, rfl, -⟩ := resolve_of_mem_children hx
    cases hy with
    | start => simp [Stack.names] at he
    | @child st' _ hst' hy _ =>
      obtain ⟨tip', rest', rfl⟩ := List.exists_cons_of_ne_nil (hst'.trail (.root root)).ne_nil
      obtain ⟨name', rfl, -⟩ := resolve_of_mem_children hy
      obtain ⟨rfl, hnames⟩ := List.cons.inj he
      obtain ⟨rfl, rfl⟩ := List.cons.inj (ih hst' hnames)
      rfl

/-- The accessor of a stack. -/
def Stack.accessor (st : List Value) : String := Path.accessor (Stack.names st).reverse

theorem accessor_withStack (p : Path) (st : List Value) :
    Path.accessor (p.withStack st).names = Stack.accessor st := by
  rw [Path.names_eq]
  rfl

/-- The stacks that a walk visits have accessors of their own. -/
theorem nodup_accessor_visits {root : Value} {o : Path.Options} (hp : PlainFields h root) :
    (((Path.new root o).visits h).map Stack.accessor).Nodup := by
  refine List.Nodup.map_on ?_ (Path.nodup_visits _ _)
  intro x hx y hy he
  have hx := (Path.mem_visits_iff.1 hx).1
  have hy := (Path.mem_visits_iff.1 hy).1
  apply hx.eq_of_names hy
  apply List.reverse_injective
  apply accessor_injective _ _ he
  · intro n hn
    exact hx.plainName hp n (List.mem_reverse.1 hn)
  · intro n hn
    exact hy.plainName hp n (List.mem_reverse.1 hn)

/-! ## Reports -/

namespace Tour

variable {row : Path → Heap → Except Stop (Option α)} {p : Path} {sts : List (List Value)}

/-- What the rows of a tour say about their stacks is, in order, what holds of some of the stacks. -/
theorem gather_sublist {β : Type} {told : α → β} {f : List Value → β}
    (hrow : ∀ st a, row (p.withStack st) h = .ok (some a) → told a = f st) :
    List.Sublist ((gather row h p sts).2.map told) (sts.map f) := by
  induction sts with
  | nil => exact List.Sublist.refl _
  | cons st rest ih =>
    unfold gather
    cases hr : row (p.withStack st) h with
    | error x => exact List.nil_sublist _
    | ok r =>
      cases r with
      | none => exact ih.cons _
      | some a =>
        rw [List.map_cons, ← hrow st a hr]
        exact ih.cons_cons _

/-- The query that gives the accessor along with each row. -/
def located (row : Path → Heap → Except Stop (Option α)) (p : Path) (h : Heap) : Except Stop (Option (String × α)) :=
  (row p h).map (·.map fun a => (Path.accessor p.names, a))

/-- The accessors given along change nothing about the rows. -/
theorem gather_located : (gather (located row) h p sts).1 = (gather row h p sts).1 ∧
    (gather (located row) h p sts).2.map Prod.snd = (gather row h p sts).2 := by
  induction sts with
  | nil => exact ⟨rfl, rfl⟩
  | cons st rest ih =>
    have hst : located row (p.withStack st) h = (row (p.withStack st) h).map
        (·.map fun a => (Path.accessor (p.withStack st).names, a)) := rfl
    rw [gather, gather, hst]
    cases row (p.withStack st) h with
    | error x => exact ⟨rfl, rfl⟩
    | ok r =>
      refine ⟨ih.1, ?_⟩
      rw [← ih.2]
      cases r <;> simp [Except.map]

end Tour

theorem accessor_of_entryAt {all e : Bool} {p : Path} {a : Listing.Entry}
    (ha : Listing.entryAt all e p h = .ok (some a)) : a.accessor = Path.accessor p.names := by
  obtain ⟨-, verdict, -, -, ⟨-, -, hnone⟩ | ⟨source, -, -, hsome⟩⟩ := Listing.exists_of_entryAt ha
  · cases hnone
  · rw [Option.some.inj hsome]
    rfl

/-- **Accessors identify rows.** Names that are indices, or texts that are not empty and have no point, opening bracket or
dollar sign, are known from their accessor. So where all fields below the root have such names, the rows of every report
on a walk from the root, whatever it asks and wherever it stops, belong to different accessors, and no two entries of the
listing of parentheses show the same one. -/
theorem accessor_identifies :
    (∀ ns ms : List Value, (∀ n ∈ ns, PlainName n) → (∀ m ∈ ms, PlainName m) →
      Path.accessor ns = Path.accessor ms → ns = ms) ∧
    ∀ (h : Heap) (root : Value), PlainFields h root →
      (∀ (o : Path.Options) (α : Type) (row : Path → Heap → Except Stop (Option α)),
        ((Tour.run h (.new root o) (Tour.located row)).2.rows.map Prod.fst).Nodup ∧
        (Tour.run h (.new root o) (Tour.located row)).2.rows.map Prod.snd = (Tour.run h (.new root o) row).2.rows) ∧
      ∀ top all e rows, root = .node top → Listing.parens h top all e = .ok rows →
        (rows.map Listing.Entry.accessor).Nodup := by
  refine ⟨fun ns ms hns hms he => accessor_injective hns hms he, ?_⟩
  intro h root hp
  refine ⟨?_, ?_⟩
  · intro o α row
    have hs := Path.stack_new_ne_nil root o
    rw [Tour.run_eq hs, Tour.run_eq hs]
    refine ⟨?_, Tour.gather_located.2⟩
    apply List.Nodup.sublist _ (nodup_accessor_visits (o := o) hp)
    apply Tour.gather_sublist
    intro st a ha
    cases hr : row ((Path.new root o).withStack st) h with
    | error x => simp [Tour.located, hr, Except.map] at ha
    | ok r =>
      simp only [Tour.located, hr, Except.map, Except.ok.injEq, Option.map_eq_some_iff] at ha
      obtain ⟨b, -, rfl⟩ := ha
      exact accessor_withStack _ st
  · rintro top all e rows rfl hrows
    have hs := Path.stack_new_ne_nil (.node top) {}
    obtain ⟨f, hf, rfl⟩ := Tour.exists_of_report hs hrows
    have hsub : List.Sublist ((Tour.gather (Listing.entryAt all e) h (Path.new (.node top))
        ((Path.new (.node top)).visits h)).2.map Listing.Entry.accessor) _ :=
      Tour.gather_sublist fun st a ha => (accessor_of_entryAt ha).trans (accessor_withStack _ st)
    rw [Tour.gather_of_ok hf] at hsub
    exact (nodup_accessor_visits hp).sublist hsub

/-- A block that holds the same node twice, with a hole between. -/
def twinElements : Heap where
  nodes := #[
    { tag := "BlockStatement", fields := .ofEntries [("body", .list ⟨0⟩)] },
    { tag := "Identifier", fields := .ofEntries [("name", .str "a")] }]
  lists := #[[.node ⟨1⟩, .null, .node ⟨1⟩]]

theorem plainFields_twinElements : PlainFields twinElements (.node ⟨0⟩) := by
  rintro ⟨_ | _ | c⟩ - key hkey
  · obtain rfl : key = "body" := List.mem_singleton.1 hkey
    simp [PlainName]
  · obtain rfl : key = "name" := List.mem_singleton.1 hkey
    simp [PlainName]
  · cases hkey

theorem accessor_identifies_twinElements : PlainFields twinElements (.node ⟨0⟩) ∧
    (Tour.run twinElements (.new (.node ⟨0⟩)) (Tour.located fun q _ => .ok (some q.stack.length))).2.rows.length = 3 ∧
    ((Tour.run twinElements (.new (.node ⟨0⟩)) (Tour.located fun q _ => .ok (some q.stack.length))).2.rows.map
      Prod.fst).Nodup ∧
    Path.accessor [.index (-1), .str "0]"] ≠ Path.accessor [.str "0]", .index (-1)] := by
  obtain ⟨hnames, hrows⟩ := accessor_identifies
  refine ⟨plainFields_twinElements, ?_, ((hrows _ _ plainFields_twinElements).1 {} _ _).1, ?_⟩
  · rw [Tour.run_eq (by decide)]
    decide
  · intro he
    have hsame := hnames _ _ (by simp [PlainName]) (by simp [PlainName]) he
    cases hsame

end Bracketing
