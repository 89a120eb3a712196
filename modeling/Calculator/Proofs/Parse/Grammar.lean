import Calculator.Proofs.Parse.Outcome

/-!
# The grammar of programs

Without binding powers the language is a grammar in levels, and each level is read by a function of
its own:

    atom      := number | name | name '(' [sum {',' sum}] ')' | '(' sum ')'
    unary     := '-' unary | atom
    power     := unary ['^' power]
    product   := power {('*' | '/' | '%') power}
    sum       := product {('+' | '-') product}
    statement := sum {'=' sum}
    program   := {statement} finish

The parser reads this grammar: at each binding power it reads one of its levels.
-/

namespace Calculator.Grammar

open Parse

-- The levels whose operators group to the left.
inductive Level
  | sum
  | product

namespace Level

def operators : Level → List Operator
  | sum     => [.add, .sub]
  | product => [.mul, .div, .rem]

@[simp]
def height : Level → Nat
  | sum     => 2
  | product => 1

end Level

-- What a statement defines, and the value or body that it gets.
inductive Target
  | name (name : String)
  | call (name : String) (params : List String)

namespace Target

def define : Target → Expr → Nat → Expr
  | name s,        value, line => .assign s value line
  | call s params, body,  line => .declare s params body line

def names? : List Expr → Option (List String)
  | []                 => some []
  | .name s _ :: exprs => (s :: ·) <$> names? exprs
  | _                  => none

-- Only a name and a call of names stand to the left of an `=`, on whose line anything else is blamed.
def of (left : Expr) (line : Nat) : Except SyntaxError Target :=
  match left with
  | .name s _      => .ok (.name s)
  | .call s args _ => (names? args).elim (.error ⟨.badParameter, line⟩) (.ok <| .call s ·)
  | _              => .error ⟨.badTarget, line⟩

end Target

section

variable {t u : Lexeme} {ts : List Lexeme}

theorem length_lt_cons : ts.length < (t :: ts).length := Nat.lt_succ_self _

theorem length_lt_cons_cons : ts.length < (t :: u :: ts).length :=
  Nat.lt_trans length_lt_cons length_lt_cons

end

-- What was opened on a line has to be closed.
def close {α : Type} (line : Nat) (inner : α) : (ts : List Lexeme) → Parsed α ts.length
  | []      => .error ⟨.unclosed, line⟩
  | t :: ts =>
    match t.value with
    | .mark .closeParen => .ok ⟨inner, ts, length_lt_cons⟩
    | _                 => .error ⟨.unclosed, line⟩

mutual

def chain (l : Level) (ts : List Lexeme) : Parsed Expr ts.length := do
  let ⟨left, ts₁, h⟩ ← link l ts
  return (← chainTail l left ts₁).widen h
termination_by (ts.length, 2 * l.height + 2)

-- What stands between the operators of a level.
def link (l : Level) (ts : List Lexeme) : Parsed Expr ts.length :=
  match l with
  | .sum     => chain .product ts
  | .product => power ts
termination_by (ts.length, 2 * l.height + 1)

def chainTail (l : Level) (left : Expr) : (ts : List Lexeme) → Parsed Expr (ts.length + 1)
  | ⟨.mark (.operator op), line⟩ :: ts =>
    if op ∈ l.operators then do
      let ⟨right, ts₁, h⟩ ← link l ts
      return (← chainTail l (.binary op left right line) ts₁).widen (by simp only [List.length_cons]; omega)
    else
      .ok ⟨left, ⟨.mark (.operator op), line⟩ :: ts, Nat.lt_succ_self _⟩
  | ts => .ok ⟨left, ts, Nat.lt_succ_self _⟩
termination_by ts => (ts.length, 0)

def power (ts : List Lexeme) : Parsed Expr ts.length := do
  let ⟨base, ts₁, h⟩ ← unary ts
  return (← powerTail base ts₁).widen h
termination_by (ts.length, 2)

def powerTail (base : Expr) : (ts : List Lexeme) → Parsed Expr (ts.length + 1)
  | ⟨.mark (.operator .pow), line⟩ :: ts => do
    let ⟨exponent, rest, h⟩ ← power ts
    return ⟨.binary .pow base exponent line, rest, by simp only [List.length_cons]; omega⟩
  | ts => .ok ⟨base, ts, Nat.lt_succ_self _⟩
termination_by ts => (ts.length, 0)

def unary : (ts : List Lexeme) → Parsed Expr ts.length
  | ⟨.mark (.operator .sub), line⟩ :: ts => do
    let ⟨operand, rest, h⟩ ← unary ts
    return ⟨.negate operand line, rest, Nat.lt_succ_of_lt h⟩
  | ts => atom ts
termination_by ts => (ts.length, 1)

def atom : (ts : List Lexeme) → Parsed Expr ts.length
  | []                          => .error ⟨.unexpected .finish, 0⟩
  | ⟨.number value, line⟩ :: ts => .ok ⟨.number value line, ts, Nat.lt_succ_self _⟩
  | ⟨.name name, line⟩ :: ⟨.mark .openParen, _⟩ :: ⟨.mark .closeParen, _⟩ :: ts =>
    .ok ⟨.call name [] line, ts, Nat.lt_trans length_lt_cons length_lt_cons_cons⟩
  | ⟨.name name, line⟩ :: ⟨.mark .openParen, _⟩ :: ts => do
    let ⟨args, ts₁, h₁⟩ ← sums ts
    let ⟨args, rest, h₂⟩ ← close line args ts₁
    return ⟨.call name args line, rest, Nat.lt_trans h₂ (Nat.lt_trans h₁ length_lt_cons_cons)⟩
  | ⟨.name name, line⟩ :: ts => .ok ⟨.name name line, ts, Nat.lt_succ_self _⟩
  | ⟨.mark .openParen, line⟩ :: ts => do
    let ⟨inner, ts₁, h⟩ ← chain .sum ts
    return (← close line inner ts₁).widen (Nat.le_of_lt (Nat.lt_trans h length_lt_cons))
  | ⟨.mark mark, line⟩ :: _ => .error ⟨.unexpected mark, line⟩
termination_by ts => (ts.length, 0)

-- One sum or more, separated by commas.
def sums (ts : List Lexeme) : Parsed (List Expr) ts.length := do
  let ⟨first, ts₁, h⟩ ← chain .sum ts
  return (← sumsTail first ts₁).widen h
termination_by (ts.length, 7)

def sumsTail (first : Expr) : (ts : List Lexeme) → Parsed (List Expr) (ts.length + 1)
  | ⟨.mark .comma, _⟩ :: ts => do
    let ⟨others, rest, h⟩ ← sums ts
    return ⟨first :: others, rest, by simp only [List.length_cons]; omega⟩
  | ts => .ok ⟨[first], ts, Nat.lt_succ_self _⟩
termination_by ts => (ts.length, 0)

end

def statementTail (left : Expr) : (ts : List Lexeme) → Parsed Expr (ts.length + 1)
  | ⟨.mark .equals, line⟩ :: ts => do
    let target ← Target.of left line
    let ⟨right, ts₁, h⟩ ← chain .sum ts
    return (← statementTail (target.define right line) ts₁).widen (by simp only [List.length_cons]; omega)
  | ts => .ok ⟨left, ts, Nat.lt_succ_self _⟩
termination_by ts => ts.length

def statement (ts : List Lexeme) : Parsed Expr ts.length := do
  let ⟨left, ts₁, h⟩ ← chain .sum ts
  return (← statementTail left ts₁).widen h

def program : List Lexeme → Except SyntaxError (List Expr)
  | []                      => .ok []
  | ⟨.mark .finish, _⟩ :: _ => .ok []
  | t :: ts => do
    let ⟨first, rest, _⟩ ← statement (t :: ts)
    return first :: (← program rest)
termination_by ts => ts.length
decreasing_by assumption

-- The level that is read at a binding power.
def level : Nat → (ts : List Lexeme) → Parsed Expr ts.length
  | 0     => statement
  | 1 | 2 => chain .sum
  | 3     => chain .product
  | 4 | 5 => power
  | _     => unary

section

variable {α : Type} {ts : List Lexeme} {t u : Lexeme} {l : Level} {left base first inner : Expr}
  {line : Nat} {op : Operator}

theorem chain_outcome :
    (chain l ts).outcome =
      (link l ts).outcome >>= fun (left, ts₁) => (chainTail l left ts₁).outcome := by
  rw [chain]
  exact Parsed.outcome_bind fun _ => Parsed.outcome_widen

theorem chainTail_operator (ht : t.value = .mark (.operator op)) (h : op ∈ l.operators) :
    (chainTail l left (t :: ts)).outcome =
      (link l ts).outcome >>= fun (right, ts₁) =>
        (chainTail l (.binary op left right t.line) ts₁).outcome := by
  cases t
  cases ht
  rw [chainTail, if_pos h]
  exact Parsed.outcome_bind fun _ => Parsed.outcome_widen

theorem chainTail_stop (h : ∀ op ∈ l.operators, (current ts).value ≠ .mark (.operator op)) :
    (chainTail l left ts).outcome = .ok (left, ts) := by
  unfold chainTail
  split
  case _ op _ _ => rw [if_neg fun ho => h op ho rfl]; rfl
  case _        => rfl

theorem statementTail_equals (ht : t.value = .mark .equals) :
    (statementTail left (t :: ts)).outcome =
      Target.of left t.line >>= fun target =>
        (chain .sum ts).outcome >>= fun (right, ts₁) =>
          (statementTail (target.define right t.line) ts₁).outcome := by
  cases t
  cases ht
  rw [statementTail]
  cases Target.of left _
  case error => rfl
  case ok    => exact Parsed.outcome_bind fun _ => Parsed.outcome_widen

theorem statementTail_stop (h : (current ts).value ≠ .mark .equals) :
    (statementTail left ts).outcome = .ok (left, ts) := by
  unfold statementTail
  split
  case _ => exact absurd rfl h
  case _ => rfl

theorem statement_outcome :
    (statement ts).outcome =
      (chain .sum ts).outcome >>= fun (left, ts₁) => (statementTail left ts₁).outcome := by
  rw [statement]
  exact Parsed.outcome_bind fun _ => Parsed.outcome_widen

theorem program_cons (h : t.value ≠ .mark .finish) :
    program (t :: ts) =
      (statement (t :: ts)).outcome >>= fun (first, rest) =>
        program rest >>= fun others => .ok (first :: others) := by
  rw [program]
  case _ => exact Parsed.bind_outcome fun _ => rfl
  case _ => rintro line rfl; exact h rfl

theorem power_outcome :
    (power ts).outcome = (unary ts).outcome >>= fun (base, ts₁) => (powerTail base ts₁).outcome := by
  rw [power]
  exact Parsed.outcome_bind fun _ => Parsed.outcome_widen

theorem powerTail_operator (ht : t.value = .mark (.operator .pow)) :
    (powerTail base (t :: ts)).outcome =
      (power ts).outcome >>= fun (exponent, rest) =>
        .ok (.binary .pow base exponent t.line, rest) := by
  cases t
  cases ht
  rw [powerTail]
  exact Parsed.outcome_bind fun _ => rfl

theorem powerTail_stop (h : (current ts).value ≠ .mark (.operator .pow)) :
    (powerTail base ts).outcome = .ok (base, ts) := by
  unfold powerTail
  split
  case _ => exact absurd rfl h
  case _ => rfl

theorem unary_negation (ht : t.value = .mark (.operator .sub)) :
    (unary (t :: ts)).outcome =
      (unary ts).outcome >>= fun (operand, rest) => .ok (.negate operand t.line, rest) := by
  cases t
  cases ht
  rw [unary]
  exact Parsed.outcome_bind fun _ => rfl

theorem unary_atom (h : (current ts).value ≠ .mark (.operator .sub)) : unary ts = atom ts := by
  unfold unary
  split
  case _ => exact absurd rfl h
  case _ => rfl

theorem close_eq_closing {inner : α} : close line inner ts = closing line inner ts := by
  refine Parsed.outcome_inj ?_
  cases ts
  case nil => rfl
  case cons t ts =>
    dsimp only [close]
    split
    case _ h => exact (closing_paren h).symm
    case _ h => exact (closing_missing (by exact h)).symm

theorem atom_call (ht : t.value = .name s) (hu : u.value = .mark .openParen)
    (h : (current ts).value ≠ .mark .closeParen) :
    (atom (t :: u :: ts)).outcome =
      (sums ts).outcome >>= fun (args, ts₁) =>
        (closing t.line args ts₁).outcome >>= fun (args, rest) => .ok (.call s args t.line, rest) := by
  cases t
  cases u
  cases ht; cases hu
  rw [atom]
  case _ =>
    refine Parsed.outcome_bind fun _ => ?_
    simp only [close_eq_closing]
    exact Parsed.outcome_bind fun _ => rfl
  case _ =>
    rintro line rest rfl
    exact h rfl

theorem atom_group (ht : t.value = .mark .openParen) :
    (atom (t :: ts)).outcome =
      (chain .sum ts).outcome >>= fun (inner, ts₁) => (closing t.line inner ts₁).outcome := by
  cases t
  cases ht
  rw [atom]
  refine Parsed.outcome_bind fun _ => ?_
  simp only [close_eq_closing]
  exact Parsed.outcome_widen

theorem atom_name {s : String} (ht : t.value = .name s)
    (h : (current ts).value ≠ .mark .openParen) :
    (atom (t :: ts)).outcome = .ok (.name s t.line, ts) := by
  cases t
  cases ht
  rw [atom]
  case _ => rfl
  case _ => rintro _ _ _ rfl; exact h rfl
  case _ => rintro _ _ rfl; exact h rfl

theorem atom_unexpected {mark : Mark} (ht : t.value = .mark mark) (h : mark ≠ .openParen) :
    (atom (t :: ts)).outcome = .error ⟨.unexpected mark, t.line⟩ := by
  cases t
  cases ht
  rw [atom]
  case _ => rfl
  case _ => exact h

theorem sums_outcome :
    (sums ts).outcome =
      (chain .sum ts).outcome >>= fun (first, ts₁) => (sumsTail first ts₁).outcome := by
  rw [sums]
  exact Parsed.outcome_bind fun _ => Parsed.outcome_widen

theorem sumsTail_comma (ht : t.value = .mark .comma) :
    (sumsTail first (t :: ts)).outcome =
      (sums ts).outcome >>= fun (others, rest) => .ok (first :: others, rest) := by
  cases t
  cases ht
  rw [sumsTail]
  exact Parsed.outcome_bind fun _ => rfl

theorem sumsTail_stop (h : (current ts).value ≠ .mark .comma) :
    (sumsTail first ts).outcome = .ok ([first], ts) := by
  unfold sumsTail
  split
  case _ => exact absurd rfl h
  case _ => rfl

end

-- The binding powers at which a level is read, and what stands between its operators.
def Level.outer : Level → Nat
  | sum     => innerPower
  | product => 3

def Level.inner : Level → Nat
  | sum     => 3
  | product => 4

namespace Level

variable {l : Level} {op : Operator} {t : Token}

theorem rightPower_eq_inner (h : op ∈ l.operators) : op.rightPower = l.inner := by
  cases l <;> cases op <;> simp_all [operators, inner, Operator.rightPower]

theorem outer_lt_leftPower (h : op ∈ l.operators) : l.outer < op.leftPower := by
  cases l <;> cases op <;> simp_all [operators, outer, innerPower, Operator.leftPower]

theorem mem_operators (h₁ : l.outer < op.leftPower) (h₂ : op.leftPower ≤ l.inner) :
    op ∈ l.operators := by
  cases l <;> cases op <;> simp_all [operators, outer, inner, innerPower, Operator.leftPower]

theorem outer_le_inner : l.outer ≤ l.inner := by
  cases l <;> decide

end Level

theorem leftPower_mem (t : Token) : t.leftPower ∈ [0, 1, 3, 4, 6] := by
  unfold Token.leftPower
  split
  case _ op => cases op <;> decide
  all_goals decide

theorem leftPower_le_negationPower (t : Token) : t.leftPower ≤ negationPower := by
  have h := leftPower_mem t
  simp only [List.mem_cons, List.not_mem_nil, or_false] at h
  unfold negationPower
  omega

theorem eq_pow_of_leftPower {t : Token} (h : 5 < t.leftPower) : t = .mark (.operator .pow) := by
  unfold Token.leftPower at h
  split at h
  case _ op => cases op <;> simp_all [Operator.leftPower]
  all_goals contradiction

theorem names?_eq (args : List Expr) : Target.names? args = args.mapM Expr.name? := by
  induction args
  case nil => rfl
  case cons e args hi =>
    rw [List.mapM_cons]
    cases e
    case name =>
      rw [Target.names?, hi]
      cases args.mapM Expr.name? <;> rfl
    all_goals rfl

theorem definition_eq (left : Expr) (line : Nat) :
    definition left line = (Target.of left line).map fun target => (target.define · line) := by
  cases left
  case call s args _ =>
    simp only [definition, Target.of, names?_eq]
    cases args.mapM Expr.name? <;> rfl
  all_goals rfl

-- The levels are read on the tokens of a list if sums are read on all shorter ones.
def SumsBelow (n : Nat) : Prop :=
  ∀ ts, ts.length < n → (expression innerPower ts).outcome = (chain .sum ts).outcome

variable {ts : List Lexeme}

theorem SumsBelow.mono {n m : Nat} (h : SumsBelow n) (hm : m ≤ n) : SumsBelow m :=
  fun _ ht => h _ (Nat.lt_of_lt_of_le ht hm)

theorem someArguments_eq {ts : List Lexeme} (h : SumsBelow (ts.length + 1)) (opened : Nat) :
    (someArguments opened ts).outcome =
      (sums ts).outcome >>= fun (args, ts₁) => (closing opened args ts₁).outcome := by
  rw [someArguments_outcome, sums_outcome, h _ (Nat.lt_succ_self _), bind_assoc]
  refine bind_congr_ok fun (arg, ts₁) he => ?_
  dsimp only
  by_cases hc : (current ts₁).value = .mark .comma
  case neg => rw [afterArgument_closing hc, sumsTail_stop hc]; rfl
  case pos =>
    match ts₁ with
    | [] => cases hc
    | t :: ts₂ =>
      have hl : ts₂.length < ts.length := Nat.lt_of_succ_lt <| Parsed.length_lt he
      rw [current_cons] at hc
      rw [afterArgument_comma hc, sumsTail_comma hc, someArguments_eq (h.mono (by omega)),
        bind_assoc, bind_assoc]
      exact bind_congr_ok fun (args, rest) _ => closing_map
termination_by ts.length

theorem expression_negationPower_cons {t : Lexeme} :
    (expression negationPower (t :: ts)).outcome = (operand t ts).outcome := by
  rw [expression_cons]
  calc
    _ = (operand t ts).outcome >>= pure :=
      bind_congr_ok fun _ _ => extend_stop (leftPower_le_negationPower _)
    _ = _ := bind_pure _

theorem operand_eq_call {t u : Lexeme} {s : String} (h : SumsBelow (t :: u :: ts).length)
    (ht : t.value = .name s) (hu : u.value = .mark .openParen) :
    (operand t (u :: ts)).outcome = (atom (t :: u :: ts)).outcome := by
  rw [operand_call ht hu]
  by_cases hc : (current ts).value = .mark .closeParen
  case neg =>
    rw [atom_call ht hu hc, arguments_some hc, someArguments_eq (h.mono (by simp)), bind_assoc]
  case pos =>
    match t, u, ts with
    | _, _, []                => cases hc
    | ⟨_, _⟩, ⟨_, _⟩, ⟨_, _⟩ :: _ =>
      cases ht; cases hu; cases hc
      rw [arguments_none rfl, atom]
      rfl

theorem operand_eq_atom {t : Lexeme} (h : SumsBelow (t :: ts).length)
    (ht : t.value ≠ .mark (.operator .sub)) :
    (operand t ts).outcome = (atom (t :: ts)).outcome := by
  match t with
  | ⟨.number _, _⟩ => rw [operand_number rfl, atom]; rfl
  | ⟨.name _, _⟩   =>
    by_cases hc : (current ts).value = .mark .openParen
    case pos =>
      match ts with
      | []     => cases hc
      | _ :: _ => exact operand_eq_call h rfl hc
    case neg =>
      rw [operand_name rfl hc, atom_name rfl hc]
  | ⟨.mark mark, _⟩ =>
    by_cases ho : mark = .openParen
    case pos =>
      cases ho
      rw [operand_group rfl, atom_group rfl, h _ (Nat.lt_succ_self _)]
    case neg =>
      rw [operand_unexpected rfl ho (ht <| congrArg _ ·), atom_unexpected rfl ho]

theorem expression_eq_unary {ts : List Lexeme} (h : SumsBelow ts.length) :
    (expression negationPower ts).outcome = (unary ts).outcome := by
  match ts with
  | []      => rw [expression_nil, unary_atom (by decide), atom]; rfl
  | t :: ts =>
    rw [expression_negationPower_cons]
    by_cases ht : t.value = .mark (.operator .sub)
    case neg =>
      have hc : (current (t :: ts)).value ≠ .mark (.operator .sub) := ht
      rw [operand_eq_atom h ht, unary_atom hc]
    case pos =>
      rw [operand_negation ht, unary_negation ht]
      rw [expression_eq_unary (h.mono (Nat.le_succ _))]

-- Binding powers make no difference if no token stands between them.
theorem expression_eq_expression {inner outer : Nat} (h : outer ≤ inner)
    (hp : ∀ power ∈ [0, 1, 3, 4, 6], power ≤ inner → power ≤ outer) :
    (expression outer ts).outcome = (expression inner ts).outcome := by
  rw [expression_extend h]
  calc
    _ = (expression inner ts).outcome >>= pure :=
      bind_congr_ok fun _ he => extend_stop (hp _ (leftPower_mem _) <| expression_stops he)
    _ = _ := bind_pure _

theorem expression_eq_power {ts : List Lexeme} (h : SumsBelow ts.length) :
    (expression 5 ts).outcome = (power ts).outcome := by
  rw [expression_extend (show 5 ≤ negationPower by decide), expression_eq_unary h, power_outcome]
  refine bind_congr_ok fun (base, ts₁) hb => ?_
  dsimp only
  by_cases hp : (current ts₁).value = .mark (.operator .pow)
  case neg =>
    have hl := mt eq_pow_of_leftPower hp
    rw [extend_stop (Nat.le_of_not_lt hl), powerTail_stop hp]
  case pos =>
    match ts₁ with
    | []       => cases hp
    | t :: ts₂ =>
      rw [current_cons] at hp
      have hl : ts₂.length < ts.length := Nat.lt_of_succ_lt <| Parsed.length_lt hb
      rw [extend_operator hp (by decide), powerTail_operator hp]
      rw [← expression_eq_power (h.mono (Nat.le_of_lt hl))]
      exact bind_congr_ok fun _ he => extend_stop (expression_stops he)
termination_by ts.length

theorem extend_eq_chainTail {l : Level} {left : Expr} {n : Nat}
    (hl : ∀ us, us.length < n → (expression l.inner us).outcome = (link l us).outcome)
    (hn : ts.length ≤ n) (hs : (current ts).value.leftPower ≤ l.inner) :
    (extend l.outer left ts).outcome = (chainTail l left ts).outcome := by
  induction left, ts using extend_induct l.outer
  case stop hp =>
    rw [extend_stop hp, chainTail_stop]
    intro op ho hc
    rw [hc] at hp
    exact Nat.not_lt.mpr hp <| Level.outer_lt_leftPower ho
  case operator t ts op ht hp hi =>
    rw [current_cons, ht] at hs
    have ho := Level.mem_operators hp hs
    rw [extend_operator ht hp, chainTail_operator ht ho, Level.rightPower_eq_inner ho, hl _ hn]
    refine bind_congr_ok fun _ he => hi _ _ (Parsed.length_lt he) ?_ ?_
    case _ => exact Nat.le_trans (Nat.le_of_lt <| Parsed.length_lt he) (Nat.le_of_succ_le hn)
    case _ => exact expression_stops (hl _ hn ▸ he)
  case equals hp _ => cases l <;> cases hp

theorem expression_eq_chain {l : Level}
    (hl : ∀ us, us.length ≤ ts.length → (expression l.inner us).outcome = (link l us).outcome) :
    (expression l.outer ts).outcome = (chain l ts).outcome := by
  rw [expression_extend Level.outer_le_inner, chain_outcome, ← hl _ (Nat.le_refl _)]
  refine bind_congr_ok fun _ he => ?_
  have hn := Nat.le_of_lt <| Parsed.length_lt he
  exact extend_eq_chainTail (fun _ h => hl _ <| Nat.le_of_lt h) hn (expression_stops he)

theorem expression_eq_product (h : SumsBelow ts.length) :
    (expression 3 ts).outcome = (chain .product ts).outcome := by
  refine expression_eq_chain (l := .product) fun us hu => ?_
  rw [link, ← expression_eq_power (h.mono hu)]
  exact expression_eq_expression (by decide) (by decide)

theorem expression_eq_sum (h : SumsBelow ts.length) :
    (expression innerPower ts).outcome = (chain .sum ts).outcome := by
  refine expression_eq_chain (l := .sum) fun us hu => ?_
  rw [link]
  exact expression_eq_product (h.mono hu)

theorem sumsBelow (n : Nat) : SumsBelow n := by
  induction n
  case zero      => exact fun _ h => absurd h (Nat.not_lt_zero _)
  case succ n hi => exact fun _ h => expression_eq_sum (hi.mono <| Nat.le_of_lt_succ h)

theorem expression_innerPower (ts : List Lexeme) :
    (expression innerPower ts).outcome = (chain .sum ts).outcome :=
  sumsBelow _ ts (Nat.lt_succ_self _)

theorem chain_sum_stops {e : Expr} {rest : List Lexeme}
    (h : (chain .sum ts).outcome = .ok (e, rest)) : (current rest).value.leftPower ≤ innerPower :=
  expression_stops <| expression_innerPower ts ▸ h

theorem extend_eq_statementTail {left : Expr} (h : (current ts).value.leftPower ≤ innerPower) :
    (extend 0 left ts).outcome = (statementTail left ts).outcome := by
  induction left, ts using extend_induct 0
  case stop hs =>
    rw [extend_stop hs, statementTail_stop]
    intro hc
    rw [hc] at hs
    contradiction
  case operator op ht _ _ =>
    rw [current_cons, ht] at h
    cases op <;> contradiction
  case equals ht _ hi =>
    rw [extend_equals ht, statementTail_equals ht, definition_eq]
    cases Target.of _ _
    case error => rfl
    case ok    =>
      simp only [Except.map, bind, Except.bind]
      rw [expression_innerPower]
      exact bind_congr_ok fun _ he => hi _ _ (Parsed.length_lt he) (chain_sum_stops he)

theorem expression_eq_statement (ts : List Lexeme) :
    (expression 0 ts).outcome = (statement ts).outcome := by
  rw [expression_extend (Nat.zero_le innerPower), expression_innerPower, statement_outcome]
  exact bind_congr_ok fun _ he => extend_eq_statementTail (chain_sum_stops he)

-- At each binding power the parser reads one level of the grammar, and leaves over the same tokens.
theorem expression_eq_level (power : Nat) (ts : List Lexeme) :
    expression power ts = level power ts := by
  refine Parsed.outcome_inj ?_
  match power with
  | 0 => exact expression_eq_statement ts
  | 1 =>
    rw [expression_eq_expression (show 1 ≤ innerPower by decide) (by decide)]
    exact expression_innerPower ts
  | 2 => exact expression_innerPower ts
  | 3 => exact expression_eq_product (sumsBelow _)
  | 4 =>
    rw [expression_eq_expression (show 4 ≤ 5 by decide) (by decide)]
    exact expression_eq_power (sumsBelow _)
  | 5 => exact expression_eq_power (sumsBelow _)
  | 6 =>
    rw [expression_eq_expression (show 6 ≤ negationPower by decide) (by decide)]
    exact expression_eq_unary (sumsBelow _)
  | n + 7 =>
    rw [← expression_eq_expression (show negationPower ≤ n + 7 from Nat.le_add_left ..)]
    case _ => exact expression_eq_unary (sumsBelow _)
    case _ =>
      intro p hp _
      simp only [List.mem_cons, List.not_mem_nil, or_false] at hp
      unfold negationPower
      omega

theorem parse_eq_program (ts : List Lexeme) : parse ts = program ts := by
  induction ts using parse.induct
  case case1           => rw [parse, program]
  case case2           => rw [parse, program]
  case case3 t ts h hi =>
    have ht : t.value ≠ .mark .finish := fun hc => h t.line (by rw [← hc])
    rw [parse_cons ht, program_cons ht, expression_eq_level, level]
    refine bind_congr_ok fun _ he => ?_
    dsimp only
    rw [hi _ (Parsed.length_lt he)]

-- The parser and the grammar agree on every list of tokens: a program has the same trees or the same
-- error in both, and what is parsed at a binding power is what its level reads, down to the tokens
-- that are left over.
theorem parser_reads_grammar :
    (∀ ts, parse ts = program ts) ∧ ∀ power ts, expression power ts = level power ts :=
  ⟨parse_eq_program, expression_eq_level⟩

end Calculator.Grammar
