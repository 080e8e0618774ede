import Bracketing.Proofs.Printing.Grammar

/-!
# Printed expressions are read in one way

`read` is a reader of printed expressions that looks at the next terminal only and never goes back. Where the grammar
is left-recursive the reader runs a loop with what it has read so far: `Goal.climb` over the operators of the tiers,
`Goal.extend` over calls and member accesses. A parenthesis may turn out to have held the parameters of an arrow
function, which is seen when the arrow comes (`names?`).

The reader reads every phrase of the grammar as the grammar does (`Derives.reads`), so a list of terminals spells at
most one expression (`Derives.unique`).
-/

namespace Bracketing.Printing

/-- What is to be read next. -/
inductive Goal where
  | expression
  /-- Assignments with commas between them, as a sequence. -/
  | items
  /-- Arguments and the parenthesis that closes them, as a sequence. -/
  | arguments
  | assignment
  /-- What makes an assignment, an arrow function or a conditional of an expression of operators. -/
  | complete (head : Expr)
  /-- An expression of operators, none below the given tier. -/
  | binary (least : Nat)
  /-- The operators after an operand, none below the given tier. -/
  | climb (least : Nat) (left : Expr)
  /-- A call or member access; no call unless `calls`. -/
  | operand (calls : Bool)
  /-- What extends a call or member access. -/
  | extend (calls : Bool) (head : Expr)

/-- The names of a parenthesis that held parameters. -/
def names? : Expr → Option (List String)
  | .paren (.identifier s) => some [s]
  | .paren (.sequence es) => es.mapM fun
    | .identifier s => some s
    | _ => none
  | _ => none

/-- The least tier to the right of an operator of a tier. -/
def rightTier (k : Nat) : Nat := if k = topTier then topTier else k + 1

/-- A sequence of one item is that item. -/
def gather : Expr → Expr
  | .sequence [e] => e
  | e => e

/-- The operator is of the tier or of one above it. -/
def reaches (least : Nat) (op : String) : Bool := (Operator.tier? op).any (least ≤ ·)

/-- Goals that look for less at the same place are lower. -/
def Goal.rank : Goal → Nat
  | expression | arguments => 4
  | items => 3
  | assignment => 2
  | binary _ => 1
  | _ => 0

/-- Reads what the goal asks for from the front of the terminals. Going on after a part asks that the part has taken
its terminals from the front, which it always has. -/
def read (goal : Goal) (ts : List Terminal) : Option (Expr × List Terminal) :=
  match goal, ts with
  | .expression, ts => do
    let (e, rest) ← read .items ts
    return (gather e, rest)
  | .items, ts => do
    match ← read .assignment ts with
    | (e, .comma :: rest) =>
      if rest.length < ts.length then
        match ← read .items rest with
        | (.sequence es, rest) => some (.sequence (e :: es), rest)
        | _ => none
      else none
    | (e, rest) => some (.sequence [e], rest)
  | .arguments, .rparen :: ts => some (.sequence [], ts)
  | .arguments, ts => do
    match ← read .items ts with
    | (e, .rparen :: rest) => some (e, rest)
    | _ => none
  | .assignment, .yield :: ts => do
    let (e, rest) ← read .assignment ts
    return (.yield e, rest)
  | .assignment, ts => do
    let (t, rest) ← read (.binary 0) ts
    if rest.length ≤ ts.length then read (.complete t) rest else none
  | .complete t, .question :: ts => do
    match ← read .assignment ts with
    | (c, .colon :: rest) =>
      if rest.length ≤ ts.length then do
        let (a, rest) ← read .assignment rest
        return (.conditional t c a, rest)
      else none
    | _ => none
  | .complete t, .arrow :: ts => do
    let names ← names? t
    let (b, rest) ← read .assignment ts
    return (.arrow names b, rest)
  | .complete t, .operator op :: ts => do
    let (v, rest) ← read .assignment ts
    return (.assignment op t v, rest)
  | .complete t, ts => some (t, ts)
  | .binary least, ts => do
    let (l, rest) ← read (.operand true) ts
    if rest.length ≤ ts.length then read (.climb least l) rest else none
  | .climb least l, .operator op :: ts =>
    if reaches least op then do
      let (r, rest) ← read (.binary (rightTier ((Operator.tier? op).getD 0))) ts
      if rest.length ≤ ts.length then read (.climb least (.binary op l r)) rest else none
    else some (l, .operator op :: ts)
  | .climb _ l, ts => some (l, ts)
  | .operand calls, .identifier s :: ts => read (.extend calls (.identifier s)) ts
  | .operand calls, .number x :: ts => read (.extend calls (.number x)) ts
  | .operand calls, .lbrace :: .rbrace :: ts => read (.extend calls .object) ts
  | .operand calls, .function n :: ts => read (.extend calls (.function n)) ts
  | .operand calls, .lparen :: .rparen :: ts => read (.extend calls (.paren (.sequence []))) ts
  | .operand calls, .lparen :: ts => do
    match ← read .expression ts with
    | (e, .rparen :: rest) => if rest.length ≤ ts.length then read (.extend calls (.paren e)) rest else none
    | _ => none
  | .operand calls, .new :: ts => do
    match ← read (.operand false) ts with
    | (c, .lparen :: rest) =>
      if rest.length ≤ ts.length then
        match ← read .arguments rest with
        | (.sequence es, rest) => if rest.length ≤ ts.length then read (.extend calls (.new c es)) rest else none
        | _ => none
      else none
    | _ => none
  | .operand _, _ => none
  | .extend calls e, .dot :: .identifier s :: ts => read (.extend calls (.dotted e s)) ts
  | .extend calls e, .lbracket :: ts => do
    match ← read .expression ts with
    | (i, .rbracket :: rest) => if rest.length ≤ ts.length then read (.extend calls (.computed e i)) rest else none
    | _ => none
  | .extend true e, .lparen :: ts => do
    match ← read .arguments ts with
    | (.sequence es, rest) => if rest.length ≤ ts.length then read (.extend true (.call e es)) rest else none
    | _ => none
  | .extend _ e, ts => some (e, ts)
termination_by (ts.length, goal.rank)
decreasing_by all_goals simp_wf; simp [Goal.rank]; try omega

/-! ## Where the loops stop -/

/-- Nothing at the front extends a call or member access, nor is it an operator that binds more tightly than those of
the tier. -/
def Closes (k : Nat) : List Terminal → Prop
  | .dot :: _ | .lbracket :: _ | .lparen :: _ => False
  | .operator op :: _ => ∀ j, Operator.tier? op = some j → j < rightTier k
  | _ => True

/-- The front can only follow a whole assignment. -/
def Ends : List Terminal → Prop
  | [] | .rparen :: _ | .rbracket :: _ | .comma :: _ | .colon :: _ => True
  | _ => False

/-- The front can only follow a whole expression. -/
def Shuts : List Terminal → Prop
  | [] | .rparen :: _ | .rbracket :: _ => True
  | _ => False

theorem Shuts.ends {ts : List Terminal} (hs : Shuts ts) : Ends ts := by
  unfold Shuts at hs
  split at hs <;> trivial

theorem Closes.mono {j k : Nat} (hjk : j ≤ k) (hk : k ≤ topTier) {ts : List Terminal} (hc : Closes j ts) :
    Closes k ts := by
  unfold Closes at *
  split <;> simp_all only
  intro i hi
  have hij := hc i hi
  unfold rightTier at *
  split at hij <;> split <;> omega

theorem read_extend_of_closes {k : Nat} {ts : List Terminal} (hc : Closes k ts) (b : Bool) (e : Expr) :
    read (.extend b e) ts = some (e, ts) := by
  rw [read]
  · rintro s us rfl
    exact hc
  · rintro us rfl
    exact hc
  · rintro us rfl -
    exact hc

theorem read_climb_of_ends {ts : List Terminal} (he : Ends ts) (k : Nat) (e : Expr) :
    read (.climb k e) ts = some (e, ts) := by
  rw [read]
  rintro op us rfl
  exact he

theorem Ends.closes {ts : List Terminal} (he : Ends ts) (k : Nat) : Closes k ts := by
  unfold Ends at he
  split at he <;> trivial

/-! ## First terminals -/

/-- A phrase begins with a terminal that closes nothing, and only assignments and expressions begin with `yield`. -/
theorem Derives.exists_first {c : Category} {ts : List Terminal} {e : Expr} (hd : Derives c ts e) :
    ∃ t us, ts = t :: us ∧ t ≠ .rparen ∧ (t = .yield → c = .assignment ∨ c = .expression) := by
  induction hd with
  | identifier | number | object | function | paren => exact ⟨_, _, rfl, by simp, by simp⟩
  | new | arrow => exact ⟨_, _, rfl, by simp, by simp⟩
  | yield => exact ⟨_, _, rfl, by simp, by simp⟩
  | ofPrimary _ ih | ofMember _ ih | ofCall _ ih | ofTier _ _ _ ih | headOfTier _ ih | headOfCoalesce _ ih
  | shortOfTier _ ih | shortOfCoalesce _ ih | ofShortCircuit _ ih =>
    obtain ⟨t, us, rfl, hr, hy⟩ := ih
    exact ⟨t, us, rfl, hr, fun h => by simpa using hy h⟩
  | ofConditional _ ih =>
    obtain ⟨t, us, rfl, hr, -⟩ := ih
    exact ⟨t, us, rfl, hr, fun _ => .inl rfl⟩
  | ofAssignment _ ih =>
    obtain ⟨t, us, rfl, hr, -⟩ := ih
    exact ⟨t, us, rfl, hr, fun _ => .inr rfl⟩
  | memberDotted _ _ ih | callDotted _ _ ih | memberComputed _ _ ih _ | callComputed _ _ ih _ | call _ _ ih _
  | power _ _ ih _ | binary _ _ _ _ _ ih _ | coalesce _ _ ih _ | conditional _ _ _ ih _ _ =>
    obtain ⟨t, us, rfl, hr, hy⟩ := ih
    exact ⟨t, _, rfl, hr, fun h => by simpa using hy h⟩
  | assignment _ _ _ _ ih _ =>
    obtain ⟨t, us, rfl, hr, -⟩ := ih
    exact ⟨t, _, rfl, hr, fun _ => .inl rfl⟩
  | @sequence items hl _ ih =>
    match items, hl with
    | i :: j :: rest, _ =>
      obtain ⟨t, us, ht, hr, -⟩ := ih i List.mem_cons_self
      exact ⟨t, _, by simp only [List.map_cons, separated, ht]; rfl, hr, fun _ => .inr rfl⟩

/-! ## Reading phrases -/

/-- The reader reads the terminals, as the beginning of a longer list, as a phrase of the category. -/
def Reads : Category → List Terminal → Expr → Prop
  | .primary, ts, e | .member, ts, e =>
    ∀ (b : Bool) (rest : List Terminal), read (.operand b) (ts ++ rest) = read (.extend b e) rest
  | .call, ts, e => ∀ rest : List Terminal, read (.operand true) (ts ++ rest) = read (.extend true e) rest
  | .tier k, ts, e => k ≤ topTier ∧ ∀ (least : Nat) (rest : List Terminal), least ≤ k → Closes k rest →
      read (.binary least) (ts ++ rest) = read (.climb least e) rest
  | .coalesce, ts, e | .coalesceHead, ts, e | .shortCircuit, ts, e =>
    ∀ rest : List Terminal, Closes 0 rest → read (.binary 0) (ts ++ rest) = read (.climb 0 e) rest
  | .conditional, ts, e | .assignment, ts, e =>
    ∀ rest : List Terminal, Ends rest → read .assignment (ts ++ rest) = some (e, rest)
  | .expression, ts, e => ∀ rest : List Terminal, Shuts rest → read .expression (ts ++ rest) = some (e, rest)

theorem read_items {items : List (List Terminal × Expr)} (hi : ∀ a ∈ items, Reads .assignment a.1 a.2)
    (hn : items ≠ []) {rest : List Terminal} (hr : Shuts rest) :
    read .items (separated (items.map Prod.fst) ++ rest) = some (.sequence (items.map Prod.snd), rest) := by
  induction items with
  | nil => exact absurd rfl hn
  | cons a items ih =>
    have ha := hi a List.mem_cons_self
    cases items with
    | nil =>
      simp only [List.map_cons, List.map_nil, separated]
      rw [read, ha rest hr.ends]
      match rest, hr with
      | [], _ | .rparen :: _, _ | .rbracket :: _, _ => rfl
    | cons b items =>
      have ih := ih (fun c hc => hi c (List.mem_cons_of_mem _ hc)) (by simp)
      simp only [List.map_cons, separated, List.append_assoc, List.cons_append] at ih ⊢
      rw [read, ha (.comma :: _) trivial]
      simp only [Option.bind_eq_bind, Option.bind_some, List.length_cons, List.length_append]
      rw [if_pos (by omega), ih]
      rfl

/-- Arguments are read together with the parenthesis after them. -/
theorem read_arguments {args : List (List Terminal × Expr)} (hd : ∀ a ∈ args, Derives .assignment a.1 a.2)
    (ha : ∀ a ∈ args, Reads .assignment a.1 a.2) (rest : List Terminal) :
    read .arguments (separated (args.map Prod.fst) ++ .rparen :: rest) =
      some (.sequence (args.map Prod.snd), rest) := by
  cases args with
  | nil => simp [separated, read]
  | cons a args =>
    have hs : Shuts (.rparen :: rest) := trivial
    have hi := read_items ha (by simp) hs
    obtain ⟨t, us, ht, hp, -⟩ := (hd a List.mem_cons_self).exists_first
    have hs : ∃ vs, separated ((a :: args).map Prod.fst) ++ .rparen :: rest = t :: vs := by
      cases args <;> simp [separated, ht]
    obtain ⟨vs, hs⟩ := hs
    rw [hs] at hi ⊢
    rw [read]
    · simp [hi]
    · rintro us' he
      exact hp (List.cons.inj he).1

theorem reads_expression_of_items {items : List (List Terminal × Expr)}
    (hi : ∀ a ∈ items, Reads .assignment a.1 a.2) (hl : 2 ≤ items.length) :
    Reads .expression (separated (items.map Prod.fst)) (.sequence (items.map Prod.snd)) := by
  intro rest hr
  rw [read, read_items hi (by rintro rfl; simp at hl) hr]
  match items, hl with
  | _ :: _ :: _, _ => rfl

theorem reads_expression_of_assignment {ts : List Terminal} {e : Expr} (ha : Reads .assignment ts e) :
    Reads .expression ts e := by
  intro rest hr
  have hi : ∀ a ∈ [(ts, e)], Reads .assignment a.1 a.2 := by simpa using ha
  have := read_items hi (by simp) hr
  simp only [List.map_cons, List.map_nil, separated] at this
  rw [read, this]
  rfl

/-! ### Calls and member accesses -/

theorem read_paren {ts : List Terminal} {e : Expr} (hd : Derives .expression ts e) (hr : Reads .expression ts e)
    (b : Bool) (rest : List Terminal) :
    read (.operand b) (.lparen :: ts ++ [.rparen] ++ rest) = read (.extend b (.paren e)) rest := by
  obtain ⟨t, us, rfl, hp, -⟩ := hd.exists_first
  have he := hr (.rparen :: rest) trivial
  simp only [List.cons_append, List.append_assoc, List.nil_append] at he ⊢
  have hle : rest.length ≤ (t :: (us ++ .rparen :: rest)).length := by
    simp only [List.length_cons, List.length_append]
    omega
  rw [read]
  · simp only [he, Option.bind_eq_bind, Option.bind_some]
    exact if_pos hle
  · rintro vs he
    exact hp (List.cons.inj he).1

theorem read_extend_computed {us : List Terminal} {i : Expr} (hr : Reads .expression us i) (b : Bool) (o : Expr)
    (rest : List Terminal) :
    read (.extend b o) (.lbracket :: (us ++ .rbracket :: rest)) = read (.extend b (.computed o i)) rest := by
  have hle : rest.length ≤ (us ++ .rbracket :: rest).length := by
    simp only [List.length_cons, List.length_append]
    omega
  rw [read, hr (.rbracket :: rest) trivial]
  exact if_pos hle

theorem read_extend_call {args : List (List Terminal × Expr)} (hd : ∀ a ∈ args, Derives .assignment a.1 a.2)
    (ha : ∀ a ∈ args, Reads .assignment a.1 a.2) (c : Expr) (rest : List Terminal) :
    read (.extend true c) (.lparen :: (separated (args.map Prod.fst) ++ .rparen :: rest)) =
      read (.extend true (.call c (args.map Prod.snd))) rest := by
  have hle : rest.length ≤ (separated (args.map Prod.fst) ++ .rparen :: rest).length := by
    simp only [List.length_cons, List.length_append]
    omega
  rw [read, read_arguments hd ha]
  exact if_pos hle

theorem read_new {ts : List Terminal} {c : Expr} {args : List (List Terminal × Expr)} (hc : Reads .member ts c)
    (hd : ∀ a ∈ args, Derives .assignment a.1 a.2) (ha : ∀ a ∈ args, Reads .assignment a.1 a.2) (b : Bool)
    (rest : List Terminal) :
    read (.operand b) (.new :: (ts ++ .lparen :: (separated (args.map Prod.fst) ++ .rparen :: rest))) =
      read (.extend b (.new c (args.map Prod.snd))) rest := by
  have hstop : ∀ us : List Terminal, read (.extend false c) (.lparen :: us) = some (c, .lparen :: us) := by
    intro us
    rw [read] <;> simp
  rw [read, hc false, hstop]
  simp only [Option.bind_eq_bind, Option.bind_some, read_arguments hd ha, List.length_cons, List.length_append]
  rw [if_pos (by omega), if_pos (by omega)]

/-! ### Operators -/

/-- An operand with nothing to extend it is the beginning of an expression of operators. -/
theorem read_binary_of_call {ts : List Terminal} {e : Expr} (hr : Reads .call ts e) {k : Nat} {rest : List Terminal}
    (hc : Closes k rest) (least : Nat) : read (.binary least) (ts ++ rest) = read (.climb least e) rest := by
  have hle : rest.length ≤ (ts ++ rest).length := by simp
  rw [read, hr rest, read_extend_of_closes hc]
  exact if_pos hle

/-- The loop over operators takes an operator with its right operand. -/
theorem read_climb_operator {op : String} {k least : Nat} {rs rest : List Terminal} {r : Expr}
    (hop : Operator.tier? op = some k) (hk : least ≤ k) (l : Expr)
    (hr : read (.binary (rightTier k)) (rs ++ rest) = some (r, rest)) :
    read (.climb least l) (.operator op :: (rs ++ rest)) = read (.climb least (.binary op l r)) rest := by
  rw [read]
  simp [reaches, hop, hk, hr]

/-- The loop over operators ends before an operator of a lower tier. -/
theorem read_climb_of_closes {k : Nat} {rest : List Terminal} (hc : Closes k rest) (e : Expr) :
    read (.climb (rightTier k) e) rest = some (e, rest) := by
  cases rest with
  | nil => rw [read]; simp
  | cons t rest =>
    by_cases ht : ∃ op, t = .operator op
    · obtain ⟨op, rfl⟩ := ht
      have hlow : reaches (rightTier k) op = false := by
        cases hop : Operator.tier? op with
        | none => simp [reaches, hop]
        | some j => simpa [reaches, hop] using hc j hop
      rw [read, hlow]
      simp
    · rw [read]
      rintro op us he
      exact ht ⟨op, (List.cons.inj he).1⟩

theorem closes_operator {op : String} {j k : Nat} (hop : Operator.tier? op = some j) (hj : j < rightTier k)
    (rest : List Terminal) : Closes k (.operator op :: rest) := by
  intro i hi
  rw [hop] at hi
  cases hi
  exact hj

theorem reads_power {ls rs : List Terminal} {l r : Expr} (hl : Reads .call ls l) (hr : Reads (.tier topTier) rs r) :
    Reads (.tier topTier) (ls ++ .operator "**" :: rs) (.binary "**" l r) := by
  refine ⟨Nat.le_refl _, fun least rest hk hc => ?_⟩
  have hop : Operator.tier? "**" = some topTier := by decide
  have hright : read (.binary (rightTier topTier)) (rs ++ rest) = some (r, rest) := by
    rw [← read_climb_of_closes hc]
    exact hr.2 _ rest (Nat.le_refl _) hc
  -- nothing closes below `**`, so the left operand is taken as an operand of no tier at all
  have hstop : Closes (topTier + 1) (.operator "**" :: (rs ++ rest)) := closes_operator hop (by decide) _
  rw [List.append_assoc, List.cons_append, read_binary_of_call hl hstop, read_climb_operator hop hk l hright]

theorem reads_binary {k : Nat} {op : String} {ls rs : List Terminal} {l r : Expr} (hk : k < topTier)
    (hop : Operator.tier? op = some k) (hl : Reads (.tier k) ls l) (hr : Reads (.tier (k + 1)) rs r) :
    Reads (.tier k) (ls ++ .operator op :: rs) (.binary op l r) := by
  have hright : rightTier k = k + 1 := if_neg (by omega)
  refine ⟨hl.1, fun least rest hle hc => ?_⟩
  have hr' : read (.binary (rightTier k)) (rs ++ rest) = some (r, rest) := by
    rw [← read_climb_of_closes hc, hright]
    exact hr.2 _ rest (Nat.le_refl _) (hc.mono (by omega) hr.1)
  rw [List.append_assoc, List.cons_append, hl.2 least _ hle (closes_operator hop (by omega) _),
    read_climb_operator hop hle l hr']

theorem reads_coalesce {ls rs : List Terminal} {l r : Expr} (hl : Reads .coalesceHead ls l)
    (hr : Reads (.tier coalesceTier) rs r) : Reads .coalesce (ls ++ .operator "??" :: rs) (.binary "??" l r) := by
  intro rest hc
  have hop : Operator.tier? "??" = some 0 := by decide
  have hr' : read (.binary (rightTier 0)) (rs ++ rest) = some (r, rest) := by
    rw [← read_climb_of_closes hc]
    exact hr.2 _ rest (by decide) (hc.mono (by decide) (by decide))
  rw [List.append_assoc, List.cons_append, hl _ (closes_operator hop (by decide) _),
    read_climb_operator hop (Nat.le_refl 0) l hr']

/-! ### Assignments -/

/-- What does not begin with `yield` is read as an expression of operators first. -/
theorem read_assignment {c : Category} {ts rest : List Terminal} {e : Expr} (hd : Derives c ts e)
    (hc : c ≠ .assignment ∧ c ≠ .expression) (hb : read (.binary 0) (ts ++ rest) = some (e, rest)) :
    read .assignment (ts ++ rest) = read (.complete e) rest := by
  have hle : rest.length ≤ (ts ++ rest).length := by simp
  obtain ⟨t, us, rfl, -, hy⟩ := hd.exists_first
  rw [read]
  · rw [hb]
    exact if_pos hle
  · rintro vs he
    rcases hy (List.cons.inj he).1 with h | h
    · exact hc.1 h
    · exact hc.2 h

theorem read_complete_of_ends {rest : List Terminal} (he : Ends rest) (t : Expr) :
    read (.complete t) rest = some (t, rest) := by
  rw [read]
  · rintro us rfl
    exact he
  · rintro us rfl
    exact he
  · rintro op us rfl
    exact he

theorem reads_conditional_of_shortCircuit {ts : List Terminal} {e : Expr} (hd : Derives .shortCircuit ts e)
    (hr : Reads .shortCircuit ts e) : Reads .conditional ts e := by
  intro rest he
  have hb : read (.binary 0) (ts ++ rest) = some (e, rest) := by rw [hr rest (he.closes 0), read_climb_of_ends he]
  rw [read_assignment hd (by simp) hb, read_complete_of_ends he]

theorem reads_conditional {ts cs as : List Terminal} {t c a : Expr} (hd : Derives .shortCircuit ts t)
    (ht : Reads .shortCircuit ts t) (hc : Reads .assignment cs c) (ha : Reads .assignment as a) :
    Reads .conditional (ts ++ .question :: cs ++ .colon :: as) (.conditional t c a) := by
  intro rest he
  have hq : ∀ us, read (.binary 0) (ts ++ .question :: us) = some (t, .question :: us) := by
    intro us
    rw [ht (.question :: us) trivial, read]
    simp
  have hle : (as ++ rest).length ≤ (cs ++ .colon :: (as ++ rest)).length := by
    simp only [List.length_cons, List.length_append]
    omega
  simp only [List.append_assoc, List.cons_append]
  rw [read_assignment hd (by simp) (hq _), read, hc (.colon :: _) trivial]
  simp only [Option.bind_eq_bind, Option.bind_some]
  rw [if_pos hle, ha rest he]
  rfl

theorem reads_assignment {op : String} {ts vs : List Terminal} {t v : Expr} (hop : Operator.tier? op = none)
    (hd : Derives .call ts t) (ht : Reads .call ts t) (hv : Reads .assignment vs v) :
    Reads .assignment (ts ++ .operator op :: vs) (.assignment op t v) := by
  intro rest he
  have hc : Closes 0 (.operator op :: (vs ++ rest)) := by
    intro j hj
    rw [hop] at hj
    cases hj
  have hq : read (.binary 0) (ts ++ .operator op :: (vs ++ rest)) = some (t, .operator op :: (vs ++ rest)) := by
    rw [read_binary_of_call ht hc, read]
    simp [reaches, hop]
  simp only [List.append_assoc, List.cons_append]
  rw [read_assignment hd (by simp) hq, read, hv rest he]
  rfl

theorem reads_assignment_identifier (s : String) : Reads .assignment [.identifier s] (.identifier s) := by
  intro rest he
  have hr : Reads .call [.identifier s] (.identifier s) := fun rest => by simp [read]
  have hb : read (.binary 0) ([.identifier s] ++ rest) = some (.identifier s, rest) := by
    rw [read_binary_of_call hr (he.closes 0), read_climb_of_ends he]
  rw [read_assignment (.identifier s) (by simp) hb, read_complete_of_ends he]

/-! ### Arrow functions -/

theorem mapM_names (names : List String) :
    (names.map Expr.identifier).mapM (fun | .identifier s => some s | _ => none) = some names := by
  induction names with
  | nil => rfl
  | cons s names ih => simp [List.mapM_cons, ih]

/-- Two or more parameters are read as a sequence of their names. -/
theorem reads_params (names : List String) (hl : 2 ≤ names.length) :
    Reads .expression (params names) (.sequence (names.map .identifier)) := by
  let items : List (List Terminal × Expr) := names.map fun s => ([.identifier s], .identifier s)
  have hitems : ∀ a ∈ items, Reads .assignment a.1 a.2 := by
    intro a ha
    obtain ⟨s, -, rfl⟩ := List.mem_map.1 ha
    exact reads_assignment_identifier s
  have hfst : separated (items.map Prod.fst) = params names := by simp [items, params, Function.comp_def]
  have hsnd : items.map Prod.snd = names.map Expr.identifier := by simp [items, Function.comp_def]
  rw [← hfst, ← hsnd]
  exact reads_expression_of_items hitems (by simpa [items] using hl)

/-- A parenthesis around parameters is read as one around their names. -/
theorem exists_read_params (names : List String) (rest : List Terminal) :
    ∃ e, read (.binary 0) (.lparen :: params names ++ .rparen :: .arrow :: rest) = some (e, .arrow :: rest) ∧
      names? e = some names := by
  have hc : Closes 0 (.arrow :: rest) := trivial
  have hclimb : ∀ e, read (.climb 0 e) (.arrow :: rest) = some (e, .arrow :: rest) := by
    intro e
    rw [read]
    simp
  suffices ho : ∃ e, read (.operand true) (.lparen :: params names ++ .rparen :: .arrow :: rest) =
      some (e, .arrow :: rest) ∧ names? e = some names by
    obtain ⟨e, he, hn⟩ := ho
    refine ⟨e, ?_, hn⟩
    have hle : (.arrow :: rest).length ≤ (.lparen :: params names ++ .rparen :: .arrow :: rest).length := by
      simp only [List.length_cons, List.length_append]
      omega
    rw [read, he]
    exact (if_pos hle).trans (hclimb e)
  match names with
  | [] => exact ⟨.paren (.sequence []), by simp [params, separated, read, read_extend_of_closes hc], rfl⟩
  | [s] =>
    refine ⟨.paren (.identifier s), ?_, rfl⟩
    have hr := reads_expression_of_assignment (reads_assignment_identifier s) (.rparen :: .arrow :: rest) trivial
    simp only [params, List.map_cons, List.map_nil, separated, List.cons_append, List.nil_append] at hr ⊢
    rw [read, hr]
    · exact (if_pos (by simp)).trans (read_extend_of_closes hc true _)
    · simp
  | s :: s' :: names =>
    refine ⟨.paren (.sequence ((s :: s' :: names).map .identifier)), ?_, mapM_names _⟩
    have hr := reads_params (s :: s' :: names) (by simp) (.rparen :: .arrow :: rest) trivial
    simp only [params, List.map_cons, separated, List.cons_append, List.nil_append] at hr ⊢
    have hle : ∀ us : List Terminal, (.arrow :: rest).length ≤ (us ++ .rparen :: .arrow :: rest).length := by
      intro us
      simp only [List.length_cons, List.length_append]
      omega
    rw [read, hr]
    · exact (if_pos (Nat.le_add_right_of_le (Nat.le_add_right_of_le (hle _)))).trans
        (read_extend_of_closes hc true _)
    · simp

theorem reads_arrow {names : List String} {ts : List Terminal} {b : Expr} (hb : Reads .assignment ts b) :
    Reads .assignment (.lparen :: params names ++ .rparen :: .arrow :: ts) (.arrow names b) := by
  intro rest he
  obtain ⟨e, hr, hn⟩ := exists_read_params names (ts ++ rest)
  simp only [List.append_assoc, List.cons_append] at hr ⊢
  rw [read]
  · simp only [hr, Option.bind_eq_bind, Option.bind_some, List.length_cons, List.length_append]
    rw [if_pos (by omega), read, hn, hb rest he]
    rfl
  · simp

/-! ### All phrases -/

/-- **The reader reads every phrase as the grammar does.** -/
theorem Derives.reads {c : Category} {ts : List Terminal} {e : Expr} (hd : Derives c ts e) : Reads c ts e := by
  induction hd with
  | identifier | number | object | function => exact fun b rest => by simp [read]
  | paren hd ih => exact fun b rest => read_paren hd ih b rest
  | ofPrimary _ ih => exact ih
  | memberDotted s _ ih =>
    intro b rest
    rw [List.append_assoc, ih b]
    simp [read]
  | memberComputed _ _ ih hi =>
    intro b rest
    simp only [List.append_assoc, List.cons_append, List.nil_append]
    rw [ih b, read_extend_computed hi]
  | new _ hd ih ha =>
    intro b rest
    simp only [List.append_assoc, List.cons_append, List.nil_append]
    exact read_new ih hd ha b rest
  | ofMember _ ih => exact ih true
  | callDotted s _ ih =>
    intro rest
    rw [List.append_assoc, ih]
    simp [read]
  | callComputed _ _ ih hi =>
    intro rest
    simp only [List.append_assoc, List.cons_append, List.nil_append]
    rw [ih, read_extend_computed hi]
  | call _ hd ih ha =>
    intro rest
    simp only [List.append_assoc, List.cons_append, List.nil_append]
    rw [ih, read_extend_call hd ha]
  | ofCall _ ih => exact ⟨Nat.le_refl _, fun least rest _ hc => read_binary_of_call ih hc least⟩
  | power _ _ hl hr => exact reads_power hl hr
  | ofTier _ hk _ ih =>
    exact ⟨Nat.le_of_lt hk, fun least rest hle hc => ih.2 least rest (by omega) (hc.mono (by omega) ih.1)⟩
  | binary _ hk hop _ _ hl hr => exact reads_binary hk hop hl hr
  | coalesce _ _ hl hr => exact reads_coalesce hl hr
  | headOfTier _ ih | shortOfTier _ ih =>
    exact fun rest hc => ih.2 0 rest (Nat.zero_le _) (hc.mono (Nat.zero_le _) ih.1)
  | headOfCoalesce _ ih | shortOfCoalesce _ ih => exact ih
  | ofShortCircuit hd ih => exact reads_conditional_of_shortCircuit hd ih
  | conditional hd _ _ ht hc ha => exact reads_conditional hd ht hc ha
  | ofConditional _ ih => exact ih
  | assignment _ hop hd _ ht hv => exact reads_assignment hop hd ht hv
  | yield _ ih =>
    intro rest he
    rw [List.cons_append, read, ih rest he]
    rfl
  | arrow _ _ ih => exact reads_arrow ih
  | ofAssignment _ ih => exact reads_expression_of_assignment ih
  | sequence hl _ ih => exact reads_expression_of_items ih hl

/-- A list of terminals spells at most one expression. -/
theorem Derives.unique {ts : List Terminal} {e e' : Expr} (hd : Derives .expression ts e)
    (hd' : Derives .expression ts e') : e = e' := by
  have h := hd.reads [] trivial
  have h' := hd'.reads [] trivial
  rw [h] at h'
  exact (Prod.mk.inj (Option.some.inj h')).1

end Bracketing.Printing
