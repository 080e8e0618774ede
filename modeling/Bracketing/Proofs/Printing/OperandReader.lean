import Bracketing.Proofs.Printing.Reader

/-!
# Expressions with prefix operators are read in one way

The grammar `OpPhrase` of expressions with prefix operators: operands of binary operators may begin with prefix
operators, operands of prefix operators are no binary expressions, and `await` takes all that follows it. Parentheses may
stand around any part and are not kept.

`readOp` reads such expressions, looking at the next terminal only. A terminal that spells an operator is a prefix
operator where an operand is expected and a binary one after an operand.

* **Reading** (`OpPhrase.reads`): every phrase is read as the grammar says, by induction on the phrase.
* **One reading** (`OpPhrase.unique`): so a list of terminals spells at most one expression.
-/

namespace Bracketing.Printing

/-! ## The grammar -/

/-- An expression of identifiers, binary and prefix operators, calls, constructions and member accesses. -/
inductive OpExpr where
  | identifier (name : String)
  | binary (op : String) (left right : OpExpr)
  | unary (op : String) (operand : OpExpr)
  | await (operand : OpExpr)
  | call (callee : OpExpr) (arguments : List OpExpr)
  | new (callee : OpExpr) (arguments : List OpExpr)
  | dotted (object : OpExpr) (name : String)
  | computed (object index : OpExpr)

/-- A category of phrases. -/
inductive OpLevel where
  | expression
  /-- The binary operators of a tier and of those above it. -/
  | tier (k : Nat)
  /-- An operand with prefix operators before it. -/
  | unary
  /-- Calls, constructions and member accesses; none that begins with a call unless `calls`. -/
  | operand (calls : Bool)
  deriving DecidableEq

/-- The grammar: the terminals spell the expression as a phrase of the category. -/
inductive OpPhrase : OpLevel → List Terminal → OpExpr → Prop
  | identifier (s : String) : OpPhrase (.operand false) [.identifier s] (.identifier s)
  | paren {ts : List Terminal} {e : OpExpr} : OpPhrase .expression ts e →
      OpPhrase (.operand false) (.lparen :: ts ++ [.rparen]) e
  | new {ts : List Terminal} {c : OpExpr} {args : List (List Terminal × OpExpr)} : OpPhrase (.operand false) ts c →
      (∀ a ∈ args, OpPhrase .expression a.1 a.2) →
      OpPhrase (.operand false) (.new :: ts ++ .lparen :: separated (args.map Prod.fst) ++ [.rparen])
        (.new c (args.map Prod.snd))
  | dotted {b : Bool} {ts : List Terminal} {o : OpExpr} (s : String) : OpPhrase (.operand b) ts o →
      OpPhrase (.operand b) (ts ++ [.dot, .identifier s]) (.dotted o s)
  | computed {b : Bool} {ts us : List Terminal} {o i : OpExpr} : OpPhrase (.operand b) ts o →
      OpPhrase .expression us i → OpPhrase (.operand b) (ts ++ .lbracket :: us ++ [.rbracket]) (.computed o i)
  | ofCallless {ts : List Terminal} {e : OpExpr} : OpPhrase (.operand false) ts e → OpPhrase (.operand true) ts e
  | call {ts : List Terminal} {c : OpExpr} {args : List (List Terminal × OpExpr)} : OpPhrase (.operand true) ts c →
      (∀ a ∈ args, OpPhrase .expression a.1 a.2) →
      OpPhrase (.operand true) (ts ++ .lparen :: separated (args.map Prod.fst) ++ [.rparen])
        (.call c (args.map Prod.snd))
  | ofOperand {ts : List Terminal} {e : OpExpr} : OpPhrase (.operand true) ts e → OpPhrase .unary ts e
  | unary {op : String} {ts : List Terminal} {e : OpExpr} : op ≠ "await" → OpPhrase .unary ts e →
      OpPhrase .unary (.operator op :: ts) (.unary op e)
  | ofUnary {ts : List Terminal} {e : OpExpr} (k : Nat) : OpPhrase .unary ts e → OpPhrase (.tier k) ts e
  | binary {j k : Nat} {op : String} {ls rs : List Terminal} {l r : OpExpr} : Operator.tier? op = some k → j ≤ k →
      OpPhrase (.tier k) ls l → OpPhrase (.tier (k + 1)) rs r →
      OpPhrase (.tier j) (ls ++ .operator op :: rs) (.binary op l r)
  | ofTier {ts : List Terminal} {e : OpExpr} : OpPhrase (.tier 0) ts e → OpPhrase .expression ts e
  | await {ts : List Terminal} {e : OpExpr} : OpPhrase .expression ts e →
      OpPhrase .expression (.operator "await" :: ts) (.await e)

/-- A phrase begins with a terminal that ends nothing. Operands do not begin with an operator, and only a whole
expression begins with `await`. -/
theorem OpPhrase.exists_first {c : OpLevel} {ts : List Terminal} {e : OpExpr} (hp : OpPhrase c ts e) :
    ∃ t us, ts = t :: us ∧ t ≠ .rparen ∧ t ≠ .comma ∧
      ∀ op, t = .operator op → (∀ b, c ≠ .operand b) ∧ (op = "await" → c = .expression) := by
  induction hp with
  | identifier | paren | new => exact ⟨_, _, rfl, by simp, by simp, by simp⟩
  | unary hop =>
    refine ⟨_, _, rfl, by simp, by simp, ?_⟩
    rintro _ ⟨⟩
    exact ⟨by simp, fun hawait => absurd hawait hop⟩
  | await => exact ⟨_, _, rfl, by simp, by simp, by simp⟩
  | ofCallless _ ih =>
    obtain ⟨t, us, rfl, hr, hc, ho⟩ := ih
    exact ⟨t, us, rfl, hr, hc, fun op hop => absurd rfl ((ho op hop).1 false)⟩
  | @dotted b _ _ _ _ ih | @computed b _ _ _ _ _ _ ih _ =>
    obtain ⟨t, us, rfl, hr, hc, ho⟩ := ih
    exact ⟨t, _, rfl, hr, hc, fun op hop => absurd rfl ((ho op hop).1 b)⟩
  | call _ _ ih _ =>
    obtain ⟨t, us, rfl, hr, hc, ho⟩ := ih
    exact ⟨t, _, rfl, hr, hc, fun op hop => absurd rfl ((ho op hop).1 true)⟩
  | ofOperand _ ih =>
    obtain ⟨t, us, rfl, hr, hc, ho⟩ := ih
    exact ⟨t, us, rfl, hr, hc, fun op hop => absurd rfl ((ho op hop).1 true)⟩
  | ofUnary k _ ih =>
    obtain ⟨t, us, rfl, hr, hc, ho⟩ := ih
    exact ⟨t, us, rfl, hr, hc, fun op hop => ⟨by simp, fun ha => by cases (ho op hop).2 ha⟩⟩
  | binary _ _ _ _ ih _ =>
    obtain ⟨t, us, rfl, hr, hc, ho⟩ := ih
    exact ⟨t, _, rfl, hr, hc, fun op hop => ⟨by simp, fun ha => by cases (ho op hop).2 ha⟩⟩
  | ofTier _ ih =>
    obtain ⟨t, us, rfl, hr, hc, -⟩ := ih
    exact ⟨t, us, rfl, hr, hc, by simp⟩

/-! ## The reader -/

/-- What is to be read next. -/
inductive OpGoal where
  | expression
  /-- An expression of binary operators, none below the given tier. -/
  | binary (least : Nat)
  /-- The binary operators after an operand, none below the given tier. -/
  | climb (least : Nat) (left : OpExpr)
  | unary
  /-- A call, construction or member access; no call unless `calls`. -/
  | operand (calls : Bool)
  /-- What extends a call, construction or member access. -/
  | extend (calls : Bool) (head : OpExpr)
  /-- The arguments that are still to come of a call, or of a construction, and what extends it. -/
  | arguments (calls constructs : Bool) (callee : OpExpr) (before : List OpExpr)

/-- Goals that look for less at the same place are lower. -/
def OpGoal.rank : OpGoal → Nat
  | arguments _ _ _ _ => 4
  | expression => 3
  | binary _ => 2
  | unary => 1
  | _ => 0

/-- The construction or the call with a callee and arguments. -/
def OpExpr.applied (constructs : Bool) (callee : OpExpr) (arguments : List OpExpr) : OpExpr :=
  if constructs then .new callee arguments else .call callee arguments

/-- Reads what the goal asks for from the front of the terminals. Going on after a part asks that the part has taken
its terminals from the front, which it always has. -/
def readOp (goal : OpGoal) (ts : List Terminal) : Option (OpExpr × List Terminal) :=
  match goal, ts with
  | .expression, .operator op :: ts =>
    if op = "await" then do
      let (e, rest) ← readOp .expression ts
      return (.await e, rest)
    else readOp (.binary 0) (.operator op :: ts)
  | .expression, ts => readOp (.binary 0) ts
  | .binary least, ts => do
    let (l, rest) ← readOp .unary ts
    if rest.length ≤ ts.length then readOp (.climb least l) rest else none
  | .climb least l, .operator op :: ts =>
    if reaches least op then do
      let (r, rest) ← readOp (.binary ((Operator.tier? op).getD 0 + 1)) ts
      if rest.length ≤ ts.length then readOp (.climb least (.binary op l r)) rest else none
    else some (l, .operator op :: ts)
  | .climb _ l, ts => some (l, ts)
  | .unary, .operator op :: ts => do
    let (e, rest) ← readOp .unary ts
    return (.unary op e, rest)
  | .unary, ts => readOp (.operand true) ts
  | .operand calls, .identifier s :: ts => readOp (.extend calls (.identifier s)) ts
  | .operand calls, .lparen :: ts => do
    match ← readOp .expression ts with
    | (e, .rparen :: rest) => if rest.length ≤ ts.length then readOp (.extend calls e) rest else none
    | _ => none
  | .operand calls, .new :: ts => do
    match ← readOp (.operand false) ts with
    | (c, .lparen :: rest) => if rest.length ≤ ts.length then readOp (.arguments calls true c []) rest else none
    | _ => none
  | .operand _, _ => none
  | .extend calls e, .dot :: .identifier s :: ts => readOp (.extend calls (.dotted e s)) ts
  | .extend calls e, .lbracket :: ts => do
    match ← readOp .expression ts with
    | (i, .rbracket :: rest) =>
      if rest.length ≤ ts.length then readOp (.extend calls (.computed e i)) rest else none
    | _ => none
  | .extend true e, .lparen :: ts => readOp (.arguments true false e []) ts
  | .extend _ e, ts => some (e, ts)
  | .arguments calls constructs c before, .rparen :: ts =>
    readOp (.extend calls (.applied constructs c before)) ts
  -- commas are passed over wherever they stand: phrases have them only between arguments
  | .arguments calls constructs c before, .comma :: ts => readOp (.arguments calls constructs c before) ts
  | .arguments calls constructs c before, ts => do
    let (e, rest) ← readOp .expression ts
    if rest.length < ts.length then readOp (.arguments calls constructs c (before ++ [e])) rest else none
termination_by (ts.length, goal.rank)
decreasing_by all_goals simp_wf; simp [OpGoal.rank]; try omega

/-! ## Where the loops stop -/

/-- Nothing at the front extends a call or member access, nor is it a binary operator above the tier. -/
def Halts (k : Nat) : List Terminal → Prop
  | .dot :: _ | .lbracket :: _ | .lparen :: _ => False
  | .operator op :: _ => ∀ j, Operator.tier? op = some j → j ≤ k
  | _ => True

theorem Halts.mono {j k : Nat} (hjk : j ≤ k) {ts : List Terminal} (hh : Halts j ts) : Halts k ts := by
  unfold Halts at *
  split <;> simp_all only
  intro i hi
  exact Nat.le_trans (hh i hi) hjk

theorem Ends.halts {ts : List Terminal} (he : Ends ts) (k : Nat) : Halts k ts := by
  unfold Ends at he
  split at he <;> trivial

theorem halts_operator {op : String} {k : Nat} (hop : Operator.tier? op = some k) (ts : List Terminal) :
    Halts k (.operator op :: ts) := by
  intro j hj
  rw [hop, Option.some.injEq] at hj
  omega

theorem readOp_extend_of_halts {k : Nat} {ts : List Terminal} (hh : Halts k ts) (b : Bool) (e : OpExpr) :
    readOp (.extend b e) ts = some (e, ts) := by
  rw [readOp]
  · rintro s us rfl
    exact hh
  · rintro us rfl
    exact hh
  · rintro us rfl -
    exact hh

/-- The loop over binary operators ends before one of a lower tier. -/
theorem readOp_climb_of_halts {k : Nat} {ts : List Terminal} (hh : Halts k ts) (e : OpExpr) :
    readOp (.climb (k + 1) e) ts = some (e, ts) := by
  cases ts with
  | nil =>
    rw [readOp]
    simp
  | cons t ts =>
    by_cases ht : ∃ op, t = .operator op
    · obtain ⟨op, rfl⟩ := ht
      have hlow : reaches (k + 1) op = false := by
        cases hop : Operator.tier? op with
        | none => simp [reaches, hop]
        | some j => simpa [reaches, hop, Nat.lt_succ_iff] using hh j hop
      rw [readOp, hlow]
      simp
    · rw [readOp]
      rintro op us he
      exact ht ⟨op, (List.cons.inj he).1⟩

theorem readOp_climb_of_ends {ts : List Terminal} (he : Ends ts) (k : Nat) (e : OpExpr) :
    readOp (.climb k e) ts = some (e, ts) := by
  rw [readOp]
  rintro op us rfl
  exact he

/-! ## Reading phrases -/

/-- The reader reads the terminals, as the beginning of a longer list, as a phrase of the category. -/
def OpReads : OpLevel → List Terminal → OpExpr → Prop
  -- what follows may extend the operand further, or be another operator of the tier, so the loops are left running
  | .operand b, ts, e => ∀ (c : Bool) (rest : List Terminal), (b = true → c = true) →
      readOp (.operand c) (ts ++ rest) = readOp (.extend c e) rest
  | .unary, ts, e => ∀ (k : Nat) (rest : List Terminal), Halts k rest → readOp .unary (ts ++ rest) = some (e, rest)
  | .tier k, ts, e => ∀ (least : Nat) (rest : List Terminal), least ≤ k → Halts k rest →
      readOp (.binary least) (ts ++ rest) = readOp (.climb least e) rest
  | .expression, ts, e => ∀ rest : List Terminal, Ends rest → readOp .expression (ts ++ rest) = some (e, rest)

/-- One argument is read and kept. -/
theorem readOp_argument {ts rest : List Terminal} {e : OpExpr} (hp : OpPhrase .expression ts e)
    (hr : OpReads .expression ts e) (he : Ends rest) (b k : Bool) (c : OpExpr) (before : List OpExpr) :
    readOp (.arguments b k c before) (ts ++ rest) = readOp (.arguments b k c (before ++ [e])) rest := by
  obtain ⟨t, us, rfl, hparen, hcomma, -⟩ := hp.exists_first
  have hlt : rest.length < (t :: us ++ rest).length := by
    simp only [List.length_append, List.length_cons]
    omega
  have hread := hr rest he
  rw [List.cons_append] at hread hlt ⊢
  rw [readOp]
  · rw [hread]
    exact if_pos hlt
  · rintro vs hvs
    exact hparen (List.cons.inj hvs).1
  · rintro vs hvs
    exact hcomma (List.cons.inj hvs).1

/-- All arguments are read, with the parenthesis after them. -/
theorem readOp_arguments (b k : Bool) (c : OpExpr) (rest : List Terminal) : ∀ (args : List (List Terminal × OpExpr))
    (before : List OpExpr), (∀ a ∈ args, OpPhrase .expression a.1 a.2) → (∀ a ∈ args, OpReads .expression a.1 a.2) →
    readOp (.arguments b k c before) (separated (args.map Prod.fst) ++ .rparen :: rest) =
      readOp (.extend b (.applied k c (before ++ args.map Prod.snd))) rest
  | [], before, _, _ => by simp [separated, readOp]
  | [a], before, hp, hr => by
    have hend : Ends (.rparen :: rest) := trivial
    rw [List.map_singleton, separated, readOp_argument (hp a List.mem_cons_self) (hr a List.mem_cons_self) hend]
    simp [readOp]
  | a :: a' :: args, before, hp, hr => by
    have hend : Ends (.comma :: (separated ((a' :: args).map Prod.fst) ++ .rparen :: rest)) := trivial
    have ih := readOp_arguments b k c rest (a' :: args) (before ++ [a.2])
      (fun x hx => hp x (List.mem_cons_of_mem _ hx)) (fun x hx => hr x (List.mem_cons_of_mem _ hx))
    have hargs : separated ((a :: a' :: args).map Prod.fst) ++ .rparen :: rest =
        a.1 ++ .comma :: (separated ((a' :: args).map Prod.fst) ++ .rparen :: rest) := by
      simp [separated]
    have hskip : ∀ us, readOp (.arguments b k c (before ++ [a.2])) (.comma :: us) =
        readOp (.arguments b k c (before ++ [a.2])) us := by
      intro us
      rw [readOp]
    rw [hargs, readOp_argument (hp a List.mem_cons_self) (hr a List.mem_cons_self) hend, hskip, ih]
    simp

theorem readOp_paren {ts : List Terminal} {e : OpExpr} (hr : OpReads .expression ts e) (b : Bool)
    (rest : List Terminal) :
    readOp (.operand b) (.lparen :: (ts ++ .rparen :: rest)) = readOp (.extend b e) rest := by
  have hle : rest.length ≤ (ts ++ .rparen :: rest).length := by
    simp only [List.length_append, List.length_cons]
    omega
  rw [readOp, hr (.rparen :: rest) trivial]
  exact if_pos hle

theorem readOp_computed {us : List Terminal} {i : OpExpr} (hr : OpReads .expression us i) (b : Bool) (o : OpExpr)
    (rest : List Terminal) :
    readOp (.extend b o) (.lbracket :: (us ++ .rbracket :: rest)) = readOp (.extend b (.computed o i)) rest := by
  have hle : rest.length ≤ (us ++ .rbracket :: rest).length := by
    simp only [List.length_append, List.length_cons]
    omega
  rw [readOp, hr (.rbracket :: rest) trivial]
  exact if_pos hle

theorem readOp_new {ts us : List Terminal} {c : OpExpr} (hr : OpReads (.operand false) ts c) (b : Bool) :
    readOp (.operand b) (.new :: (ts ++ .lparen :: us)) = readOp (.arguments b true c []) us := by
  have hstop : readOp (.extend false c) (.lparen :: us) = some (c, .lparen :: us) := by
    rw [readOp] <;> simp
  have hle : us.length ≤ (ts ++ .lparen :: us).length := by
    simp only [List.length_append, List.length_cons]
    omega
  rw [readOp, hr false _ (by simp), hstop]
  exact if_pos hle

theorem readOp_unary_of_operand {ts : List Terminal} {e : OpExpr} (hp : OpPhrase (.operand true) ts e)
    (hr : OpReads (.operand true) ts e) : OpReads .unary ts e := by
  intro k rest hh
  have hread : readOp (.operand true) (ts ++ rest) = some (e, rest) := by
    rw [hr true rest (fun _ => rfl), readOp_extend_of_halts hh]
  obtain ⟨t, us, rfl, -, -, hop⟩ := hp.exists_first
  rw [List.cons_append] at hread ⊢
  rw [readOp, hread]
  rintro op vs he
  exact (hop op (List.cons.inj he).1).1 true rfl

theorem readOp_binary_of_unary {ts : List Terminal} {e : OpExpr} (hr : OpReads .unary ts e) (k : Nat) :
    OpReads (.tier k) ts e := by
  intro least rest _ hh
  have hle : rest.length ≤ (ts ++ rest).length := by simp
  rw [readOp, hr k rest hh]
  exact if_pos hle

theorem readOp_binary {j k : Nat} {op : String} {ls rs : List Terminal} {l r : OpExpr}
    (hop : Operator.tier? op = some k) (hjk : j ≤ k) (hl : OpReads (.tier k) ls l)
    (hr : OpReads (.tier (k + 1)) rs r) : OpReads (.tier j) (ls ++ .operator op :: rs) (.binary op l r) := by
  intro least rest hleast hh
  have hright : readOp (.binary (k + 1)) (rs ++ rest) = some (r, rest) := by
    rw [hr (k + 1) rest (Nat.le_refl _) (hh.mono (by omega)), readOp_climb_of_halts (hh.mono hjk)]
  have hreach : reaches least op = true := by
    simp only [reaches, hop, Option.any_some, decide_eq_true_eq]
    omega
  have hle : rest.length ≤ (rs ++ rest).length := by simp
  rw [List.append_assoc, List.cons_append, hl least _ (by omega) (halts_operator hop _), readOp, if_pos hreach, hop]
  simp only [Option.getD_some, hright, Option.bind_eq_bind, Option.bind_some]
  exact if_pos hle

theorem readOp_expression_of_tier {ts : List Terminal} {e : OpExpr} (hp : OpPhrase (.tier 0) ts e)
    (hr : OpReads (.tier 0) ts e) : OpReads .expression ts e := by
  intro rest he
  have hread : readOp (.binary 0) (ts ++ rest) = some (e, rest) := by
    rw [hr 0 rest (Nat.le_refl 0) (he.halts 0), readOp_climb_of_ends he]
  obtain ⟨t, us, rfl, -, -, hfirst⟩ := hp.exists_first
  rw [List.cons_append] at hread ⊢
  by_cases ht : ∃ op, t = .operator op
  · obtain ⟨op, rfl⟩ := ht
    have hno : op ≠ "await" := by
      intro hawait
      cases (hfirst op rfl).2 hawait
    rw [readOp, if_neg hno, hread]
  · rw [readOp, hread]
    rintro op vs hvs
    exact ht ⟨op, (List.cons.inj hvs).1⟩

/-- **The reader reads every phrase as the grammar does.** -/
theorem OpPhrase.reads {c : OpLevel} {ts : List Terminal} {e : OpExpr} (hp : OpPhrase c ts e) : OpReads c ts e := by
  induction hp with
  | identifier s =>
    intro b rest _
    simp [readOp]
  | paren _ ih =>
    intro b rest _
    simpa using readOp_paren ih b rest
  | @new ts c args _ ha ih hr =>
    intro b rest _
    have hargs := readOp_arguments b true c rest args [] ha hr
    simp only [List.cons_append, List.append_assoc, List.nil_append] at hargs ⊢
    rw [readOp_new ih b, hargs]
    rfl
  | dotted s _ ih =>
    intro b rest hb
    rw [List.append_assoc, ih b _ hb]
    simp [readOp]
  | computed _ _ ih hi =>
    intro b rest hb
    simp only [List.append_assoc, List.cons_append, List.nil_append]
    rw [ih b _ hb, readOp_computed hi]
  | ofCallless _ ih =>
    intro b rest _
    exact ih b rest (by simp)
  | @call ts c args _ ha ih hr =>
    intro b rest hb
    obtain rfl := hb rfl
    have hargs := readOp_arguments true false c rest args [] ha hr
    simp only [List.append_assoc, List.cons_append, List.nil_append] at hargs ⊢
    rw [ih true _ hb, readOp, hargs]
    rfl
  | ofOperand hp ih => exact readOp_unary_of_operand hp ih
  | unary _ _ ih =>
    intro k rest hh
    rw [List.cons_append, readOp, ih k rest hh]
    rfl
  | ofUnary k _ ih => exact readOp_binary_of_unary ih k
  | binary hop hjk _ _ hl hr => exact readOp_binary hop hjk hl hr
  | ofTier hp ih => exact readOp_expression_of_tier hp ih
  | await _ ih =>
    intro rest he
    rw [List.cons_append, readOp, if_pos rfl, ih rest he]
    rfl

/-- A list of terminals spells at most one expression. -/
theorem OpPhrase.unique {ts : List Terminal} {e e' : OpExpr} (hp : OpPhrase .expression ts e)
    (hp' : OpPhrase .expression ts e') : e = e' := by
  have h := hp.reads [] trivial
  have h' := hp'.reads [] trivial
  rw [h] at h'
  exact (Prod.mk.inj (Option.some.inj h')).1

end Bracketing.Printing
