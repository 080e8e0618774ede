import Bracketing.Proofs.Printing.Grammar

/-!
# Spelled types are read in one way

`TypeExpr.spell` writes a type as terminals. The slot that it fills says which types need parentheses there: none where a
whole type is expected, those that end in something open where a prefix, a connective or a bracket comes next to them.

`readType` reads them back, looking at the next terminal only. A parenthesis may turn out to have held parameters, which
is seen when the arrow comes. Array brackets and indices come after what they belong to, so that the reader goes on with
what it has read so far (`TypeGoal.extend`).

* **Reading** (`TypeExpr.readable`): every type is read back from its spelling in every slot, by induction on the type.
* **One reading** (`TypeExpr.spell_injective`): two types with one spelling are the same.
-/

namespace Bracketing.Printing

/-! ## Types and their spelling -/

/-- What stands between the members of a type. -/
inductive Connective where
  | union
  | intersection
  deriving DecidableEq

/-- The operator of a connective. -/
def Connective.text : Connective → String
  | union => "|"
  | intersection => "&"

/-- The connective of an operator. -/
def Connective.ofText? (s : String) : Option Connective :=
  if s = "|" then some .union else if s = "&" then some .intersection else none

theorem Connective.ofText?_text (c : Connective) : Connective.ofText? c.text = some c := by
  cases c <;> decide

/-- A type. A union or intersection has two members or more. -/
inductive TypeExpr where
  | leaf (name : String)
  | joined (c : Connective) (first second : TypeExpr) (more : List TypeExpr)
  | nullable (inner : TypeExpr)
  | array (element : TypeExpr)
  | function (params : List TypeExpr) (result : TypeExpr)
  | indexed (optional : Bool) (object index : TypeExpr)

/-- What a type is part of, as far as parentheses go. -/
inductive TypeSlot where
  /-- A whole type: that of an alias, a parameter, a result or an index. -/
  | whole
  /-- A member of a union or intersection, or what a question mark stands before. -/
  | operand
  /-- What brackets of an array or of an optional access come after. -/
  | element
  /-- What an index comes after. -/
  | object
  deriving DecidableEq

/-- The type needs parentheses in the slot. -/
def TypeExpr.parens (slot : TypeSlot) : TypeExpr → Bool
  | leaf _ | array _ | indexed false _ _ => false
  | joined _ _ _ _ | function _ _ => slot ≠ .whole
  | nullable _ => slot = .element || slot = .object
  | indexed true _ _ => slot = .object

/-- The terminals, in parentheses or not. -/
def wrap (parens : Bool) (ts : List Terminal) : List Terminal := if parens then .lparen :: ts ++ [.rparen] else ts

namespace TypeExpr

mutual

/-- The terminals of a type in a slot. -/
def spell (slot : TypeSlot) : TypeExpr → List Terminal
  | leaf s => wrap ((leaf s).parens slot) [.identifier s]
  | joined c a b more => wrap ((joined c a b more).parens slot)
      ([.operator c.text].intercalate (a.spell .operand :: b.spell .operand :: spellAll .operand more))
  | nullable t => wrap ((nullable t).parens slot) (.question :: t.spell .operand)
  | array t => wrap ((array t).parens slot) (t.spell .element ++ [.lbracket, .rbracket])
  | function ps r => wrap ((function ps r).parens slot)
      (.lparen :: separated (spellAll .whole ps) ++ .rparen :: .arrow :: r.spell .whole)
  | indexed false o k => wrap ((indexed false o k).parens slot)
      (o.spell .object ++ .lbracket :: k.spell .whole ++ [.rbracket])
  | indexed true o k => wrap ((indexed true o k).parens slot)
      (o.spell .element ++ .operator "?." :: .lbracket :: k.spell .whole ++ [.rbracket])

/-- The terminals of types that fill slots of one sort. -/
def spellAll (slot : TypeSlot) : List TypeExpr → List (List Terminal)
  | [] => []
  | t :: ts => t.spell slot :: spellAll slot ts

end

theorem parens_whole (t : TypeExpr) : t.parens .whole = false := by
  cases t with
  | indexed optional => cases optional <;> rfl
  | _ => rfl

/-- A type is spelled as a whole, apart from parentheses. -/
theorem spell_eq (slot : TypeSlot) (t : TypeExpr) : t.spell slot = wrap (t.parens slot) (t.spell .whole) := by
  cases t with
  | indexed optional => cases optional <;> simp [spell, parens, wrap]
  | _ => simp [spell, parens, wrap]

theorem spell_of_parens {slot : TypeSlot} {t : TypeExpr} (ht : t.parens slot = true) :
    t.spell slot = .lparen :: t.spell .whole ++ [.rparen] := by
  rw [spell_eq, ht]
  rfl

theorem spell_of_bare {slot : TypeSlot} {t : TypeExpr} (ht : t.parens slot = false) :
    t.spell slot = t.spell .whole := by
  rw [spell_eq, ht]
  rfl

end TypeExpr

theorem intercalate_cons (sep : Terminal) (x y : List Terminal) (zs : List (List Terminal)) :
    [sep].intercalate (x :: y :: zs) = x ++ sep :: [sep].intercalate (y :: zs) := by
  simp [List.intercalate]

/-! ## The reader -/

/-- What is to be read next. -/
inductive TypeGoal where
  | type
  /-- A type without a connective. -/
  | member
  /-- What comes after a type and belongs to it. -/
  | extend (t : TypeExpr)
  /-- What makes a member of a type that has been read, if a connective comes. -/
  | join (t : TypeExpr)
  /-- Types with a connective between them. -/
  | members (c : Connective)
  /-- Types with commas between them, and the parenthesis that closes them. -/
  | params

/-- Goals that look for less at the same place are lower. -/
def TypeGoal.rank : TypeGoal → Nat
  | params => 2
  | type | members _ => 1
  | member | extend _ | join _ => 0

/-- Reads what the goal asks for from the front of the terminals: one type, or several. Going on after a part asks that
the part has taken its terminals from the front, which it always has. -/
def readType (goal : TypeGoal) (ts : List Terminal) : Option (List TypeExpr × List Terminal) :=
  match goal, ts with
  | .type, ts => do
    match ← readType .member ts with
    | ([t], rest) => if rest.length ≤ ts.length then readType (.join t) rest else none
    | _ => none
  | .member, .question :: ts => do
    match ← readType .member ts with
    | ([t], rest) => some ([.nullable t], rest)
    | _ => none
  | .member, .identifier s :: ts => readType (.extend (.leaf s)) ts
  | .member, .lparen :: ts => do
    match ← readType .params ts with
    | (ps, .arrow :: rest) =>
      if rest.length ≤ ts.length then do
        match ← readType .type rest with
        | ([r], rest) => some ([.function ps r], rest)
        | _ => none
      else none
    | ([t], rest) => if rest.length ≤ ts.length then readType (.extend t) rest else none
    | _ => none
  | .member, _ => none
  | .extend t, .lbracket :: .rbracket :: ts => readType (.extend (.array t)) ts
  | .extend t, .lbracket :: ts => do
    match ← readType .type ts with
    | ([k], .rbracket :: rest) =>
      if rest.length ≤ ts.length then readType (.extend (.indexed false t k)) rest else none
    | _ => none
  | .extend t, .operator op :: ts =>
    if op = "?." then
      match ts with
      | .lbracket :: ts => do
        match ← readType .type ts with
        | ([k], .rbracket :: rest) =>
          if rest.length ≤ ts.length then readType (.extend (.indexed true t k)) rest else none
        | _ => none
      | _ => none
    else some ([t], .operator op :: ts)
  | .extend t, ts => some ([t], ts)
  | .join t, .operator op :: ts =>
    match Connective.ofText? op with
    | some c => do
      match ← readType (.members c) ts with
      | (u :: us, rest) => some ([.joined c t u us], rest)
      | _ => none
    | none => some ([t], .operator op :: ts)
  | .join t, ts => some ([t], ts)
  | .members c, ts => do
    match ← readType .member ts with
    | ([t], .operator op :: rest) =>
      if op = c.text then
        if rest.length < ts.length then do
          let (us, rest) ← readType (.members c) rest
          some (t :: us, rest)
        else none
      else some ([t], .operator op :: rest)
    | ([t], rest) => some ([t], rest)
    | _ => none
  | .params, .rparen :: ts => some ([], ts)
  | .params, ts => do
    match ← readType .type ts with
    | ([t], .rparen :: rest) => some ([t], rest)
    | ([t], .comma :: rest) =>
      if rest.length < ts.length then do
        let (us, rest) ← readType .params rest
        some (t :: us, rest)
      else none
    | _ => none
termination_by (ts.length, goal.rank)
decreasing_by all_goals simp_wf; simp [TypeGoal.rank]; try omega

/-! ## Where the reader stops -/

/-- Nothing at the front belongs to a type that has just been read, and no arrow makes parameters of it. -/
def TypeStops (rest : List Terminal) : Prop :=
  rest.head? ≠ some .lbracket ∧ rest.head? ≠ some (.operator "?.") ∧ rest.head? ≠ some .arrow

/-- A whole type ends here. -/
def TypeEnds (rest : List Terminal) : Prop :=
  rest = [] ∨ ∃ us, rest = .rparen :: us ∨ rest = .rbracket :: us ∨ rest = .comma :: us

theorem TypeEnds.stops {rest : List Terminal} (hr : TypeEnds rest) : TypeStops rest := by
  rcases hr with rfl | ⟨us, rfl | rfl | rfl⟩ <;> simp [TypeStops]

theorem stops_connective (c : Connective) (us : List Terminal) : TypeStops (.operator c.text :: us) := by
  cases c <;> simp [TypeStops, Connective.text]

section Rules

variable {t u k r : TypeExpr} {ps us : List TypeExpr} {ts rest more : List Terminal}

theorem readType_type (hm : readType .member ts = some ([t], rest)) (hl : rest.length ≤ ts.length) :
    readType .type ts = readType (.join t) rest := by
  rw [readType, hm]
  simp [hl]

theorem readType_join_of_ends (hr : TypeEnds rest) : readType (.join t) rest = some ([t], rest) := by
  rcases hr with rfl | ⟨us, rfl | rfl | rfl⟩ <;> rw [readType] <;> simp

theorem readType_join (c : Connective) (hm : readType (.members c) ts = some (u :: us, rest)) :
    readType (.join t) (.operator c.text :: ts) = some ([.joined c t u us], rest) := by
  rw [readType, Connective.ofText?_text]
  simp [hm]

theorem readType_extend_of_stops (hr : TypeStops rest) : readType (.extend t) rest = some ([t], rest) := by
  obtain ⟨hb, ho, -⟩ := hr
  cases rest with
  | nil => rw [readType] <;> simp
  | cons x rest =>
    cases x with
    | lbracket => exact absurd rfl hb
    | operator op =>
      have hop : op ≠ "?." := fun h => ho (by rw [h]; rfl)
      unfold readType
      simp [hop]
    | _ => rw [readType] <;> simp

theorem readType_array : readType (.extend t) (.lbracket :: .rbracket :: ts) = readType (.extend (.array t)) ts := by
  rw [readType]

theorem readType_index (hb : ts.head? ≠ some .rbracket) (hk : readType .type ts = some ([k], .rbracket :: rest))
    (hl : rest.length ≤ ts.length) :
    readType (.extend t) (.lbracket :: ts) = readType (.extend (.indexed false t k)) rest := by
  rw [readType]
  · simp [hk, hl]
  · rintro us rfl
    exact hb rfl

theorem readType_optionalIndex (hk : readType .type ts = some ([k], .rbracket :: rest))
    (hl : rest.length ≤ ts.length) :
    readType (.extend t) (.operator "?." :: .lbracket :: ts) = readType (.extend (.indexed true t k)) rest := by
  rw [readType]
  simp [hk, hl]

theorem readType_leaf (s : String) : readType .member (.identifier s :: ts) = readType (.extend (.leaf s)) ts := by
  rw [readType]

theorem readType_nullable (ht : readType .member ts = some ([t], rest)) :
    readType .member (.question :: ts) = some ([.nullable t], rest) := by
  rw [readType, ht]
  rfl

theorem readType_paren (ht : readType .params ts = some ([t], rest)) (ha : rest.head? ≠ some .arrow)
    (hl : rest.length ≤ ts.length) : readType .member (.lparen :: ts) = readType (.extend t) rest := by
  rw [readType, ht]
  cases rest with
  | nil => simp
  | cons x rest =>
    cases x with
    | arrow => exact absurd rfl ha
    | _ => simpa using fun h => absurd hl (by simpa using h)

theorem readType_function (hp : readType .params ts = some (ps, .arrow :: rest)) (hl : rest.length ≤ ts.length)
    (hr : readType .type rest = some ([r], more)) :
    readType .member (.lparen :: ts) = some ([.function ps r], more) := by
  rw [readType, hp]
  simp [hl, hr]

theorem readType_members_last (c : Connective) (ht : readType .member ts = some ([t], rest)) (hr : TypeEnds rest) :
    readType (.members c) ts = some ([t], rest) := by
  rw [readType, ht]
  rcases hr with rfl | ⟨us, rfl | rfl | rfl⟩ <;> rfl

theorem readType_members_cons (c : Connective)
    (ht : readType .member ts = some ([t], .operator c.text :: rest)) (hl : rest.length < ts.length)
    (hm : readType (.members c) rest = some (us, more)) : readType (.members c) ts = some (t :: us, more) := by
  rw [readType, ht]
  simp [hl, hm]

theorem readType_params_nil : readType .params (.rparen :: ts) = some ([], ts) := by
  rw [readType]

theorem readType_params_last (hb : ts.head? ≠ some .rparen) (ht : readType .type ts = some ([t], .rparen :: rest)) :
    readType .params ts = some ([t], rest) := by
  rw [readType]
  · rw [ht]
    rfl
  · rintro us rfl
    exact hb rfl

theorem readType_params_cons (hb : ts.head? ≠ some .rparen) (ht : readType .type ts = some ([t], .comma :: rest))
    (hl : rest.length < ts.length) (hm : readType .params rest = some (us, more)) :
    readType .params ts = some (t :: us, more) := by
  rw [readType]
  · rw [ht]
    simp [hl, hm]
  · rintro us rfl
    exact hb rfl

end Rules

/-! ## How spelled types begin -/

/-- The terminals begin with something, and not with what closes a list. -/
def Begins (ts : List Terminal) : Prop := ∃ x xs, ts = x :: xs ∧ x ≠ .rparen ∧ x ≠ .rbracket

theorem Begins.append {ts : List Terminal} (ht : Begins ts) (us : List Terminal) : Begins (ts ++ us) := by
  obtain ⟨x, xs, rfl, hx⟩ := ht
  exact ⟨x, xs ++ us, rfl, hx⟩

theorem Begins.ne_rparen {ts : List Terminal} (ht : Begins ts) : ts.head? ≠ some .rparen := by
  obtain ⟨x, xs, rfl, hx, -⟩ := ht
  simpa using hx

theorem Begins.ne_rbracket {ts : List Terminal} (ht : Begins ts) : ts.head? ≠ some .rbracket := by
  obtain ⟨x, xs, rfl, -, hx⟩ := ht
  simpa using hx

namespace TypeExpr

theorem begins_of_whole {t : TypeExpr} (ht : Begins (t.spell .whole)) (slot : TypeSlot) : Begins (t.spell slot) := by
  rw [spell_eq]
  cases t.parens slot with
  | false => exact ht
  | true => exact ⟨.lparen, _, rfl, by simp, by simp⟩

theorem begins : ∀ t : TypeExpr, Begins (t.spell .whole)
  | leaf s => ⟨.identifier s, [], rfl, by simp, by simp⟩
  | joined c a b more => by
    have ha := begins_of_whole (begins a) .operand
    rw [spell, parens_whole, intercalate_cons]
    exact ha.append _
  | nullable t => ⟨.question, t.spell .operand, rfl, by simp, by simp⟩
  | array t => (begins_of_whole (begins t) .element).append _
  | function ps r => ⟨.lparen, _, rfl, by simp, by simp⟩
  | indexed false o k => by
    rw [spell, parens_whole]
    exact ((begins_of_whole (begins o) .object).append _).append _
  | indexed true o k => by
    rw [spell, parens_whole]
    exact ((begins_of_whole (begins o) .element).append _).append _

/-! ## Reading what is spelled -/

/-- The type is read back from its spelling: as a whole where a type may end, before brackets as what they come after,
and as an operand where nothing that belongs to it follows. -/
structure Readable (t : TypeExpr) : Prop where
  whole : ∀ rest, TypeEnds rest → readType .type (t.spell .whole ++ rest) = some ([t], rest)
  tight : ∀ slot, slot = .element ∨ slot = .object → ∀ rest, rest.head? ≠ some .arrow →
    readType .member (t.spell slot ++ rest) = readType (.extend t) rest
  operand : ∀ rest, TypeStops rest → readType .member (t.spell .operand ++ rest) = some ([t], rest)

section Readable

variable {t : TypeExpr}

/-- A type in parentheses is read as what may be extended. -/
theorem readType_enclosed (hw : ∀ rest, TypeEnds rest → readType .type (t.spell .whole ++ rest) = some ([t], rest))
    {rest : List Terminal} (ha : rest.head? ≠ some .arrow) :
    readType .member (.lparen :: t.spell .whole ++ [.rparen] ++ rest) = readType (.extend t) rest := by
  have hp : readType .params (t.spell .whole ++ .rparen :: rest) = some ([t], rest) :=
    readType_params_last ((begins t).append _).ne_rparen (hw _ (.inr ⟨rest, .inl rfl⟩))
  have := readType_paren hp ha (by simp only [List.length_append, List.length_cons]; omega)
  simpa using this

/-- What is spelled without parentheses in a slot has to be read there; parentheses are read in one way. -/
theorem Readable.of (hw : ∀ rest, TypeEnds rest → readType .type (t.spell .whole ++ rest) = some ([t], rest))
    (ht : ∀ slot, slot = .element ∨ slot = .object → t.parens slot = false → ∀ rest, rest.head? ≠ some .arrow →
      readType .member (t.spell .whole ++ rest) = readType (.extend t) rest)
    (ho : t.parens .operand = false → ∀ rest, TypeStops rest →
      readType .member (t.spell .whole ++ rest) = some ([t], rest)) : Readable t where
  whole := hw
  tight slot hs rest ha := by
    cases hp : t.parens slot with
    | false =>
      rw [spell_of_bare hp]
      exact ht slot hs hp rest ha
    | true =>
      rw [spell_of_parens hp]
      exact readType_enclosed hw ha
  operand rest hr := by
    cases hp : t.parens .operand with
    | false =>
      rw [spell_of_bare hp]
      exact ho hp rest hr
    | true =>
      rw [spell_of_parens hp, readType_enclosed hw hr.2.2]
      exact readType_extend_of_stops hr

/-- A type that ends in what belongs to it may be extended wherever it is spelled without parentheses. -/
theorem Readable.of_extend (ht : ∀ rest, readType .member (t.spell .whole ++ rest) = readType (.extend t) rest) :
    Readable t := by
  have hm : ∀ rest, TypeStops rest → readType .member (t.spell .whole ++ rest) = some ([t], rest) := fun rest hr => by
    rw [ht rest]
    exact readType_extend_of_stops hr
  refine .of (fun rest hr => ?_) (fun _ _ _ rest _ => ht rest) fun _ => hm
  rw [readType_type (hm rest hr.stops) (by simp)]
  exact readType_join_of_ends hr

/-- A type that is spelled in parentheses wherever it is not whole is read if it is read as a whole. -/
theorem Readable.of_whole (hp : ∀ slot, slot ≠ .whole → t.parens slot = true)
    (hw : ∀ rest, TypeEnds rest → readType .type (t.spell .whole ++ rest) = some ([t], rest)) : Readable t := by
  refine .of hw (fun slot hs hb => ?_) fun hb => ?_
  · rw [hp slot (by rintro rfl; simp at hs)] at hb
    cases hb
  · rw [hp .operand (by simp)] at hb
    cases hb

theorem readable_leaf (s : String) : Readable (leaf s) :=
  .of_extend fun _ => readType_leaf s

theorem Readable.nullable (ht : Readable t) : Readable (nullable t) := by
  have hm : ∀ rest, TypeStops rest →
      readType .member ((TypeExpr.nullable t).spell .whole ++ rest) = some ([.nullable t], rest) := fun rest hr =>
    readType_nullable (ht.operand rest hr)
  refine .of (fun rest hr => ?_) (fun slot hs hb => ?_) fun _ => hm
  · rw [readType_type (hm rest hr.stops) (by simp)]
    exact readType_join_of_ends hr
  · rcases hs with rfl | rfl <;> cases hb

theorem Readable.array (ht : Readable t) : Readable (array t) := by
  refine .of_extend fun rest => ?_
  have := ht.tight .element (.inl rfl) (.lbracket :: .rbracket :: rest) (by simp)
  rw [readType_array] at this
  simpa [spell, parens, wrap] using this

theorem Readable.indexed {o k : TypeExpr} (ho : Readable o) (hk : Readable k) :
    ∀ optional, Readable (indexed optional o k)
  | false => by
    refine .of_extend fun rest => ?_
    have hi : readType .type (k.spell .whole ++ .rbracket :: rest) = some ([k], .rbracket :: rest) :=
      hk.whole _ (.inr ⟨rest, .inr (.inl rfl)⟩)
    have := ho.tight .object (.inr rfl) (.lbracket :: (k.spell .whole ++ .rbracket :: rest)) (by simp)
    rw [readType_index ((begins k).append _).ne_rbracket hi
      (by simp only [List.length_append, List.length_cons]; omega)] at this
    simpa [spell, parens, wrap] using this
  | true => by
    refine .of_extend fun rest => ?_
    have hi : readType .type (k.spell .whole ++ .rbracket :: rest) = some ([k], .rbracket :: rest) :=
      hk.whole _ (.inr ⟨rest, .inr (.inl rfl)⟩)
    have := ho.tight .element (.inl rfl) (.operator "?." :: .lbracket :: (k.spell .whole ++ .rbracket :: rest))
      (by simp)
    rw [readType_optionalIndex hi (by simp only [List.length_append, List.length_cons]; omega)] at this
    simpa [spell, parens, wrap] using this

/-- Members with a connective between them are read one after another. -/
theorem readType_members_spell (c : Connective) {rest : List Terminal} (hr : TypeEnds rest) :
    ∀ (t : TypeExpr) (ts : List TypeExpr), (∀ u ∈ t :: ts, Readable u) →
      readType (.members c) ([.operator c.text].intercalate (t.spell .operand :: spellAll .operand ts) ++ rest) =
        some (t :: ts, rest)
  | t, [], h => by
    have ht := (h t List.mem_cons_self).operand rest hr.stops
    simpa [spellAll, List.intercalate] using readType_members_last c ht hr
  | t, u :: us, h => by
    obtain ⟨ht, hus⟩ := List.forall_mem_cons.1 h
    have ih := readType_members_spell c hr u us hus
    rw [spellAll, intercalate_cons, List.append_assoc, List.cons_append]
    refine readType_members_cons c (ht.operand _ (stops_connective c _)) ?_ ih
    simp only [List.length_append, List.length_cons]
    omega

theorem Readable.joined {a b : TypeExpr} {more : List TypeExpr} (c : Connective) (ha : Readable a) (hb : Readable b)
    (hm : ∀ t ∈ more, Readable t) : Readable (joined c a b more) := by
  refine .of_whole (fun slot hs => by simpa [parens] using hs) fun rest hr => ?_
  have hms := readType_members_spell c hr b more (List.forall_mem_cons.2 ⟨hb, hm⟩)
  rw [spell, parens_whole, wrap, if_neg (by simp), intercalate_cons, List.append_assoc, List.cons_append]
  rw [readType_type (ha.operand _ (stops_connective c _)) (by simp)]
  exact readType_join c hms

/-- Parameters are read up to the parenthesis that closes them. -/
theorem readType_params_spell (rest : List Terminal) : ∀ ts : List TypeExpr, (∀ t ∈ ts, Readable t) →
    readType .params (separated (spellAll .whole ts) ++ .rparen :: rest) = some (ts, rest)
  | [], _ => readType_params_nil
  | [t], h => by
    have ht := (h t List.mem_cons_self).whole (.rparen :: rest) (.inr ⟨rest, .inl rfl⟩)
    exact readType_params_last ((begins t).append _).ne_rparen ht
  | t :: u :: us, h => by
    obtain ⟨ht, hus⟩ := List.forall_mem_cons.1 h
    have ih := readType_params_spell rest (u :: us) hus
    have hs : separated (spellAll .whole (t :: u :: us)) ++ .rparen :: rest =
        t.spell .whole ++ .comma :: (separated (spellAll .whole (u :: us)) ++ .rparen :: rest) := by
      simp [spellAll, separated]
    rw [hs]
    refine readType_params_cons ((begins t).append _).ne_rparen (ht.whole _ (.inr ⟨_, .inr (.inr rfl)⟩)) ?_ ih
    simp only [List.length_append, List.length_cons]
    omega

theorem Readable.function {ps : List TypeExpr} {r : TypeExpr} (hps : ∀ t ∈ ps, Readable t) (hr : Readable r) :
    Readable (function ps r) := by
  refine .of_whole (fun slot hs => by simpa [parens] using hs) fun rest he => ?_
  have hp := readType_params_spell (.arrow :: (r.spell .whole ++ rest)) ps hps
  have hm := readType_function hp (by simp only [List.length_append, List.length_cons]; omega) (hr.whole rest he)
  have hs : (TypeExpr.function ps r).spell .whole ++ rest =
      .lparen :: (separated (spellAll .whole ps) ++ .rparen :: .arrow :: (r.spell .whole ++ rest)) := by
    simp [spell, parens, wrap]
  rw [hs, readType_type hm (by simp only [List.length_append, List.length_cons]; omega)]
  exact readType_join_of_ends he

end Readable

mutual

/-- Every type is read back from its spelling. -/
theorem readable : ∀ t : TypeExpr, Readable t
  | leaf s => readable_leaf s
  | joined c a b more => (readable a).joined c (readable b) (readable_all more)
  | nullable t => (readable t).nullable
  | array t => (readable t).array
  | function ps r => .function (readable_all ps) (readable r)
  | indexed optional o k => (readable o).indexed (readable k) optional

theorem readable_all : ∀ (ts : List TypeExpr), ∀ t ∈ ts, Readable t
  | [] => by simp
  | t :: ts => List.forall_mem_cons.2 ⟨readable t, readable_all ts⟩

end

/-- Two types with one spelling are the same. -/
theorem spell_injective {t t' : TypeExpr} (h : t.spell .whole = t'.spell .whole) : t = t' := by
  have ht := (readable t).whole [] (.inl rfl)
  have ht' := (readable t').whole [] (.inl rfl)
  rw [h, ht'] at ht
  simpa using ht.symm

end TypeExpr

end Bracketing.Printing
