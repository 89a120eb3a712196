import Calculator.Expr.Parse

/-!
# Outcomes of parsing

A function of the parser returns what it has read together with a proof that it took tokens off the
list. Its outcome leaves the proof out: what has been read and what is left over, or the error. The
equations of the parser are simpler for outcomes, and no information is lost.
-/

namespace Calculator.Parse

variable {α β : Type} {n m : Nat}

def Parsed.outcome (p : Parsed α n) : Except SyntaxError (α × List Lexeme) :=
  p.map fun s => (s.result, s.rest)

-- Beyond the last token stands the end of the source, on line 0.
def current : List Lexeme → Lexeme
  | []     => ⟨.mark .finish, 0⟩
  | t :: _ => t

@[simp]
theorem current_cons {t : Lexeme} {ts : List Lexeme} : current (t :: ts) = t := rfl

theorem current_ne {ts : List Lexeme} {mark : Mark} (hm : mark ≠ .finish)
    (h : ∀ line rest, ts = ⟨.mark mark, line⟩ :: rest → False) :
    (current ts).value ≠ .mark mark := by
  intro hc
  match ts with
  | []             => cases hc; contradiction
  | ⟨_, line⟩ :: _ => cases hc; exact h line _ rfl

namespace Parsed

theorem outcome_inj {p q : Parsed α n} (h : p.outcome = q.outcome) : p = q := by
  cases p <;> cases q <;> simp [outcome, Except.map] at h
  case error.error => exact congrArg _ h
  case ok.ok s t   =>
    cases s; cases t
    cases h.left; cases h.right; rfl

theorem outcome_bind {p : Parsed α n} {f : Step α n → Parsed β m}
    {g : α × List Lexeme → Except SyntaxError (β × List Lexeme)}
    (h : ∀ s, (f s).outcome = g (s.result, s.rest)) : outcome (p >>= f) = p.outcome >>= g := by
  cases p
  case error => rfl
  case ok s  => exact h s

@[simp]
theorem outcome_ok {s : Step α n} : outcome (.ok s) = .ok (s.result, s.rest) := rfl

@[simp]
theorem outcome_error {e : SyntaxError} : outcome (.error e : Parsed α n) = .error e := rfl

theorem bind_outcome {p : Parsed α n} {f : Step α n → Except SyntaxError β}
    {g : α × List Lexeme → Except SyntaxError β} (h : ∀ s, f s = g (s.result, s.rest)) :
    p >>= f = p.outcome >>= g := by
  cases p
  case error => rfl
  case ok s  => exact h s

theorem length_lt {p : Parsed α n} {a : α} {rest : List Lexeme} (h : p.outcome = .ok (a, rest)) :
    rest.length < n := by
  cases p
  case error => cases h
  case ok s  => cases h; exact s.shorter

@[simp]
theorem outcome_widen {p : Parsed α n} {h : n ≤ m} :
    outcome (p >>= fun s => pure (s.widen h)) = p.outcome := by
  cases p <;> rfl

end Parsed

section

variable {ts : List Lexeme} {t u : Lexeme} {left arg : Expr} {power opened : Nat} {op : Operator}
  {inner : α}

theorem expression_nil : (expression power []).outcome = .error ⟨.unexpected .finish, 0⟩ := by
  simp [expression]

theorem expression_cons :
    (expression power (t :: ts)).outcome =
      (operand t ts).outcome >>= fun (left, ts₁) => (extend power left ts₁).outcome := by
  rw [expression]
  exact Parsed.outcome_bind fun _ => Parsed.outcome_widen

theorem extend_stop (h : (current ts).value.leftPower ≤ power) :
    (extend power left ts).outcome = .ok (left, ts) := by
  cases ts
  case nil  => simp [extend]
  case cons =>
    rw [current_cons] at h
    rw [extend, if_neg (Nat.not_lt.mpr h)]; rfl

theorem extend_operator (ht : t.value = .mark (.operator op)) (h : power < op.leftPower) :
    (extend power left (t :: ts)).outcome =
      (expression op.rightPower ts).outcome >>= fun (right, ts₁) =>
        (extend power (.binary op left right t.line) ts₁).outcome := by
  cases t
  cases ht
  rw [extend, if_pos (by exact h)]
  exact Parsed.outcome_bind fun _ => Parsed.outcome_widen

theorem extend_equals (ht : t.value = .mark .equals) :
    (extend 0 left (t :: ts)).outcome =
      definition left t.line >>= fun define =>
        (expression innerPower ts).outcome >>= fun (right, ts₁) =>
          (extend 0 (define right) ts₁).outcome := by
  cases t
  cases ht
  rw [extend, if_pos (by exact Nat.zero_lt_one)]
  cases definition left _
  case error => rfl
  case ok    => exact Parsed.outcome_bind fun _ => Parsed.outcome_widen

-- Only operators and the `=` extend an expression.
theorem extends_cases (h : power < t.value.leftPower) :
    (∃ op, t.value = .mark (.operator op)) ∨ t.value = .mark .equals := by
  unfold Token.leftPower at h
  split at h
  case _ op ht => exact .inl ⟨op, ht⟩
  case _ ht    => exact .inr ht
  case _       => exact absurd h (Nat.not_lt_zero _)

theorem closing_paren (ht : t.value = .mark .closeParen) :
    (closing opened inner (t :: ts)).outcome = .ok (inner, ts) := by
  cases t
  cases ht
  rfl

theorem closing_missing (h : (current ts).value ≠ .mark .closeParen) :
    (closing opened inner ts).outcome = .error ⟨.unclosed, opened⟩ := by
  unfold closing
  split
  case _ => exact absurd rfl h
  case _ => rfl

-- The closing parenthesis does not depend on what it closes.
theorem closing_map {f : α → β} :
    ((closing opened inner ts).outcome >>= fun (a, rest) => .ok (f a, rest)) =
      (closing opened (f inner) ts).outcome := by
  unfold closing
  split <;> rfl

theorem operand_number {x : Number} (ht : t.value = .number x) :
    (operand t ts).outcome = .ok (.number x t.line, ts) := by
  cases t
  cases ht
  rw [operand]; rfl

theorem operand_name {s : String} (ht : t.value = .name s)
    (h : (current ts).value ≠ .mark .openParen) :
    (operand t ts).outcome = .ok (.name s t.line, ts) := by
  cases t
  cases ht
  rw [operand]
  simp only
  split
  case _ => exact absurd rfl h
  case _ => rfl

theorem operand_call {s : String} (ht : t.value = .name s) (hu : u.value = .mark .openParen) :
    (operand t (u :: ts)).outcome =
      (arguments t.line ts).outcome >>= fun (args, rest) => .ok (.call s args t.line, rest) := by
  cases t
  cases u
  cases ht; cases hu
  rw [operand]
  exact Parsed.outcome_bind fun _ => rfl

theorem operand_group (ht : t.value = .mark .openParen) :
    (operand t ts).outcome =
      (expression innerPower ts).outcome >>= fun (inner, ts₁) =>
        (closing t.line inner ts₁).outcome := by
  cases t
  cases ht
  rw [operand]
  exact Parsed.outcome_bind fun _ => Parsed.outcome_widen

theorem operand_negation (ht : t.value = .mark (.operator .sub)) :
    (operand t ts).outcome =
      (expression negationPower ts).outcome >>= fun (inner, rest) =>
        .ok (.negate inner t.line, rest) := by
  cases t
  cases ht
  rw [operand]
  exact Parsed.outcome_bind fun _ => rfl

theorem operand_unexpected {mark : Mark} (ht : t.value = .mark mark) (ho : mark ≠ .openParen)
    (hs : mark ≠ .operator .sub) :
    (operand t ts).outcome = .error ⟨.unexpected mark, t.line⟩ := by
  cases t
  cases ht
  unfold operand
  cases mark <;> try rfl
  case openParen   => contradiction
  case operator op => cases op <;> first | rfl | contradiction

theorem arguments_none (ht : t.value = .mark .closeParen) :
    (arguments opened (t :: ts)).outcome = .ok ([], ts) := by
  cases t
  cases ht
  rw [arguments]; rfl

theorem arguments_some (h : (current ts).value ≠ .mark .closeParen) :
    (arguments opened ts).outcome = (someArguments opened ts).outcome := by
  rw [arguments]
  rintro line rest rfl
  exact h rfl

-- What comes of the tokens after an argument.
def afterArgument (opened : Nat) (arg : Expr) :
    List Lexeme → Except SyntaxError (List Expr × List Lexeme)
  | ⟨.mark .comma, _⟩ :: ts =>
    (someArguments opened ts).outcome >>= fun (args, rest) => .ok (arg :: args, rest)
  | ts => (closing opened [arg] ts).outcome

theorem someArguments_outcome :
    (someArguments opened ts).outcome =
      (expression innerPower ts).outcome >>= fun (arg, ts₁) => afterArgument opened arg ts₁ := by
  rw [someArguments]
  refine Parsed.outcome_bind fun s => ?_
  obtain ⟨arg, rest, _⟩ := s
  simp only [afterArgument]
  split
  case _     => exact Parsed.outcome_bind fun _ => rfl
  case _ h =>
    split
    case _ => exact (h _ _ _ rfl .rfl).elim
    case _ => exact Parsed.outcome_widen

theorem afterArgument_comma (ht : t.value = .mark .comma) :
    afterArgument opened arg (t :: ts) =
      (someArguments opened ts).outcome >>= fun (args, rest) => .ok (arg :: args, rest) := by
  cases t
  cases ht
  rfl

theorem afterArgument_closing (h : (current ts).value ≠ .mark .comma) :
    afterArgument opened arg ts = (closing opened [arg] ts).outcome := by
  unfold afterArgument
  split
  case _ => exact absurd rfl h
  case _ => rfl

theorem parse_nil : parse [] = .ok [] := by
  rw [parse]

theorem parse_finish (ht : t.value = .mark .finish) : parse (t :: ts) = .ok [] := by
  cases t
  cases ht
  rw [parse]

theorem parse_cons (h : t.value ≠ .mark .finish) :
    parse (t :: ts) =
      (expression 0 (t :: ts)).outcome >>= fun (first, rest) =>
        parse rest >>= fun others => .ok (first :: others) := by
  rw [parse]
  case _ => exact Parsed.bind_outcome fun _ => rfl
  case _ => rintro line rfl; exact h rfl

end

section

variable {p : Except SyntaxError α} {f g : α → Except SyntaxError β}

theorem bind_congr_ok (h : ∀ a, p = .ok a → f a = g a) : p >>= f = p >>= g := by
  cases p
  case error => rfl
  case ok a  => exact h a rfl

theorem bind_eq_ok {b : β} (h : p >>= f = .ok b) : ∃ a, p = .ok a ∧ f a = .ok b := by
  cases p
  case error => cases h
  case ok a  => exact ⟨a, rfl, h⟩

end

-- An expression is extended token by token, until one does not bind it tightly enough.
theorem extend_induct (power : Nat) {motive : Expr → List Lexeme → Prop}
    (stop : ∀ left ts, (current ts).value.leftPower ≤ power → motive left ts)
    (operator : ∀ left t ts op, t.value = .mark (.operator op) → power < op.leftPower →
      (∀ right ts₁, ts₁.length < ts.length → motive (.binary op left right t.line) ts₁) →
      motive left (t :: ts))
    (equals : ∀ left t ts, t.value = .mark .equals → power = 0 →
      (∀ e ts₁, ts₁.length < ts.length → motive e ts₁) → motive left (t :: ts))
    (left : Expr) (ts : List Lexeme) : motive left ts := by
  induction h : ts.length using Nat.strongRecOn generalizing left ts
  case ind n hi =>
    subst h
    by_cases hp : (current ts).value.leftPower ≤ power
    case pos => exact stop left ts hp
    case neg =>
      cases ts
      case nil       => exact absurd (Nat.zero_le _) hp
      case cons t ts =>
        have hp := Nat.lt_of_not_le hp
        have shorter {e ts₁} (h : ts₁.length < ts.length) : motive e ts₁ :=
          hi _ (Nat.lt_succ_of_lt h) e ts₁ rfl
        rw [current_cons] at hp
        cases extends_cases hp
        case inl h =>
          have ⟨op, ht⟩ := h
          rw [ht] at hp
          exact operator left t ts op ht hp fun _ _ => shorter
        case inr ht =>
          rw [ht] at hp
          exact equals left t ts ht (Nat.lt_one_iff.mp hp) fun _ _ => shorter

theorem extend_extend {inner outer : Nat} {left : Expr} {ts : List Lexeme} (h : outer ≤ inner) :
    ((extend inner left ts).outcome >>= fun (e, rest) => (extend outer e rest).outcome) =
      (extend outer left ts).outcome := by
  induction left, ts using extend_induct inner
  case stop hs => rw [extend_stop hs]; rfl
  case operator ht hp hi =>
    rw [extend_operator ht hp, extend_operator ht (Nat.lt_of_le_of_lt h hp), bind_assoc]
    exact bind_congr_ok fun _ he => hi _ _ (Parsed.length_lt he)
  case equals ht hp hi =>
    cases hp; cases Nat.le_zero.mp h
    rw [extend_equals ht, bind_assoc]
    refine bind_congr_ok fun _ _ => ?_
    rw [bind_assoc]
    exact bind_congr_ok fun _ he => hi _ _ (Parsed.length_lt he)

-- What is left over after an expression does not bind it.
theorem extend_stops {power : Nat} {left e : Expr} {ts rest : List Lexeme}
    (h : (extend power left ts).outcome = .ok (e, rest)) :
    (current rest).value.leftPower ≤ power := by
  induction left, ts using extend_induct power
  case stop hs =>
    rw [extend_stop hs] at h
    cases h
    exact hs
  case operator ht hp hi =>
    rw [extend_operator ht hp] at h
    have ⟨_, he, h⟩ := bind_eq_ok h
    exact hi _ _ (Parsed.length_lt he) h
  case equals ht hp hi =>
    cases hp
    rw [extend_equals ht] at h
    have ⟨_, _, h⟩  := bind_eq_ok h
    have ⟨_, he, h⟩ := bind_eq_ok h
    exact hi _ _ (Parsed.length_lt he) h

theorem expression_stops {power : Nat} {e : Expr} {ts rest : List Lexeme}
    (h : (expression power ts).outcome = .ok (e, rest)) :
    (current rest).value.leftPower ≤ power := by
  cases ts
  case nil  => rw [expression_nil] at h; cases h
  case cons =>
    rw [expression_cons] at h
    have ⟨_, _, h⟩ := bind_eq_ok h
    exact extend_stops h

-- To extend an expression loosely is to extend it tightly first.
theorem expression_extend {inner outer : Nat} {ts : List Lexeme} (h : outer ≤ inner) :
    (expression outer ts).outcome =
      (expression inner ts).outcome >>= fun (e, rest) => (extend outer e rest).outcome := by
  cases ts
  case nil  => rw [expression_nil, expression_nil]; rfl
  case cons =>
    rw [expression_cons, expression_cons, bind_assoc]
    exact bind_congr_ok fun _ _ => (extend_extend h).symm

end Calculator.Parse
