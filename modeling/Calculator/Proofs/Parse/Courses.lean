import Calculator.Proofs.Parse.Lookahead

/-!
# Courses

How the parser goes from the beginning to the end of what it reads, token by token. Taking a token off an
exhausted list leaves the list as it is, so nothing in the rules says that a course comes to an end. Still
there is one on every list of tokens, with or without an end of the source in it, and there is only one.
-/

namespace Calculator.Parse

-- What the parser can be asked to read, by what it makes of it. An operand is read once its first
-- token has been taken, and arguments after their open parenthesis.
inductive Goal : Type → Type
  | expression (power : Nat) : Goal Expr
  | operand (t : Lexeme) : Goal Expr
  | extension (power : Nat) (left : Expr) : Goal Expr
  | arguments (opened : Nat) : Goal (List Expr)
  | someArguments (opened : Nat) : Goal (List Expr)

def Goal.read {α : Type} (ts : List Lexeme) : Goal α → Except SyntaxError (α × List Lexeme)
  | expression power     => (Parse.expression power ts).outcome
  | operand t            => (Parse.operand t ts).outcome
  | extension power left => (Parse.extend power left ts).outcome
  | arguments opened     => (Parse.arguments opened ts).outcome
  | someArguments opened => (Parse.someArguments opened ts).outcome

-- How something is read from beginning to end, with what comes of it and the tokens left over. A
-- token is taken off a list, be it exhausted or not, and no rule tells how many there are.
inductive Course : {α : Type} → Goal α → List Lexeme → Except SyntaxError (α × List Lexeme) → Prop
  -- expressions
  | operandError :
    Course (.operand (current ts)) ts.tail (.error err) →
    Course (.expression power) ts (.error err)
  | expression :
    Course (.operand (current ts)) ts.tail (.ok (left, ts₁)) →
    Course (.extension power left) ts₁ r →
    Course (.expression power) ts r
  -- operands
  | number :
    t.value = .number x →
    Course (.operand t) ts (.ok (.number x t.line, ts))
  | name :
    t.value = .name s →
    (current ts).value ≠ .mark .openParen →
    Course (.operand t) ts (.ok (.name s t.line, ts))
  | call :
    t.value = .name s →
    (current ts).value = .mark .openParen →
    Course (.arguments t.line) ts.tail r →
    Course (.operand t) ts (r.map fun (args, rest) => (.call s args t.line, rest))
  | innerError :
    t.value = .mark .openParen →
    Course (.expression innerPower) ts (.error err) →
    Course (.operand t) ts (.error err)
  | group :
    t.value = .mark .openParen →
    Course (.expression innerPower) ts (.ok (e, ts₁)) →
    Course (.operand t) ts (closing t.line e ts₁).outcome
  | negation :
    t.value = .mark (.operator .sub) →
    Course (.expression negationPower) ts r →
    Course (.operand t) ts (r.map fun (e, rest) => (.negate e t.line, rest))
  | unexpected :
    t.value = .mark mark → mark ≠ .openParen → mark ≠ .operator .sub →
    Course (.operand t) ts (.error ⟨.unexpected mark, t.line⟩)
  -- operators and definitions
  | stop :
    (current ts).value.leftPower ≤ power →
    Course (.extension power left) ts (.ok (left, ts))
  | rightError :
    (current ts).value = .mark (.operator op) → power < op.leftPower →
    Course (.expression op.rightPower) ts.tail (.error err) →
    Course (.extension power left) ts (.error err)
  | operator :
    (current ts).value = .mark (.operator op) → power < op.leftPower →
    Course (.expression op.rightPower) ts.tail (.ok (right, ts₁)) →
    Course (.extension power (.binary op left right (current ts).line)) ts₁ r →
    Course (.extension power left) ts r
  | badDefinition :
    (current ts).value = .mark .equals →
    definition left (current ts).line = .error err →
    Course (.extension 0 left) ts (.error err)
  | definedError :
    (current ts).value = .mark .equals →
    definition left (current ts).line = .ok define →
    Course (.expression innerPower) ts.tail (.error err) →
    Course (.extension 0 left) ts (.error err)
  | definition :
    (current ts).value = .mark .equals →
    definition left (current ts).line = .ok define →
    Course (.expression innerPower) ts.tail (.ok (right, ts₁)) →
    Course (.extension 0 (define right)) ts₁ r →
    Course (.extension 0 left) ts r
  -- arguments
  | noArguments :
    (current ts).value = .mark .closeParen →
    Course (.arguments opened) ts (.ok ([], ts.tail))
  | arguments :
    (current ts).value ≠ .mark .closeParen →
    Course (.someArguments opened) ts r →
    Course (.arguments opened) ts r
  | argumentError :
    Course (.expression innerPower) ts (.error err) →
    Course (.someArguments opened) ts (.error err)
  | argument :
    Course (.expression innerPower) ts (.ok (arg, ts₁)) →
    (current ts₁).value = .mark .comma →
    Course (.someArguments opened) ts₁.tail r →
    Course (.someArguments opened) ts (r.map fun (args, rest) => (arg :: args, rest))
  | lastArgument :
    Course (.expression innerPower) ts (.ok (arg, ts₁)) →
    (current ts₁).value ≠ .mark .comma →
    Course (.someArguments opened) ts (closing opened [arg] ts₁).outcome

-- The same for a whole program.
inductive ProgramCourse : List Lexeme → Except SyntaxError (List Expr) → Prop
  | finish :
    (current ts).value = .mark .finish →
    ProgramCourse ts (.ok [])
  | statementError :
    (current ts).value ≠ .mark .finish →
    Course (.expression 0) ts (.error err) →
    ProgramCourse ts (.error err)
  | statement :
    (current ts).value ≠ .mark .finish →
    Course (.expression 0) ts (.ok (first, ts₁)) →
    ProgramCourse ts₁ r →
    ProgramCourse ts (r.map (first :: ·))

section

variable {ts : List Lexeme} {t : Lexeme} {op : Operator} {power opened : Nat} {left arg : Expr}

-- The equations of the parser by the token that is current, on an exhausted list too.

theorem expression_current :
    (expression power ts).outcome =
      (operand (current ts) ts.tail).outcome >>= fun (left, ts₁) => (extend power left ts₁).outcome := by
  cases ts
  case nil  => rw [expression_nil, operand_unexpected rfl (by decide) (by decide)]; rfl
  case cons => exact expression_cons

theorem operand_call_current {s : String} (ht : t.value = .name s)
    (hu : (current ts).value = .mark .openParen) :
    (operand t ts).outcome =
      (arguments t.line ts.tail).outcome >>= fun (args, rest) => .ok (.call s args t.line, rest) := by
  cases ts
  case nil  => cases hu
  case cons => exact operand_call ht hu

theorem extend_operator_current (ht : (current ts).value = .mark (.operator op))
    (hp : power < op.leftPower) :
    (extend power left ts).outcome =
      (expression op.rightPower ts.tail).outcome >>= fun (right, ts₁) =>
        (extend power (.binary op left right (current ts).line) ts₁).outcome := by
  cases ts
  case nil  => cases ht
  case cons => exact extend_operator ht hp

theorem extend_equals_current (ht : (current ts).value = .mark .equals) :
    (extend 0 left ts).outcome =
      definition left (current ts).line >>= fun define =>
        (expression innerPower ts.tail).outcome >>= fun (right, ts₁) =>
          (extend 0 (define right) ts₁).outcome := by
  cases ts
  case nil  => cases ht
  case cons => exact extend_equals ht

theorem arguments_none_current (hc : (current ts).value = .mark .closeParen) :
    (arguments opened ts).outcome = .ok ([], ts.tail) := by
  cases ts
  case nil  => cases hc
  case cons => exact arguments_none hc

theorem afterArgument_comma_current (hc : (current ts).value = .mark .comma) :
    afterArgument opened arg ts =
      (someArguments opened ts.tail).outcome >>= fun (args, rest) => .ok (arg :: args, rest) := by
  cases ts
  case nil  => cases hc
  case cons => exact afterArgument_comma hc

end

variable {α : Type} {g : Goal α} {ts : List Lexeme} {r : Except SyntaxError (α × List Lexeme)}

theorem Course.read_eq (h : Course g ts r) : g.read ts = r := by
  induction h
  all_goals simp only [Goal.read] at *
  -- expressions
  case operandError hi            => rw [expression_current, hi]; rfl
  case expression h₁ h₂           => rw [expression_current, h₁]; exact h₂
  -- operands
  case number ht                  => exact operand_number ht
  case name ht hu                 => exact operand_name ht hu
  case call r _ _ ht hu _ hi      => rw [operand_call_current ht hu, hi]; cases r <;> rfl
  case innerError ht _ hi         => rw [operand_group ht, hi]; rfl
  case group ht _ hi              => rw [operand_group ht, hi]; rfl
  case negation r _ ht _ hi       => rw [operand_negation ht, hi]; cases r <;> rfl
  case unexpected ht ho hs        => exact operand_unexpected ht ho hs
  -- operators and definitions
  case stop hp                    => exact extend_stop hp
  case rightError ht hp _ hi      => rw [extend_operator_current ht hp, hi]; rfl
  case operator ht hp _ _ h₁ h₂   => rw [extend_operator_current ht hp, h₁]; exact h₂
  case badDefinition ht hd        => rw [extend_equals_current ht, hd]; rfl
  case definedError ht hd _ hi    => rw [extend_equals_current ht, hd, hi]; rfl
  case definition ht hd _ _ h₁ h₂ => rw [extend_equals_current ht, hd, h₁]; exact h₂
  -- arguments
  case noArguments hc             => exact arguments_none_current hc
  case arguments hc _ hi          => rw [arguments_some hc, hi]
  case argumentError hi           => rw [someArguments_outcome, hi]; rfl
  case argument r _ hc _ h₁ h₂ =>
    rw [someArguments_outcome, h₁]
    refine (afterArgument_comma_current hc).trans ?_
    rw [h₂]
    cases r <;> rfl
  case lastArgument hc hi =>
    rw [someArguments_outcome, hi]
    exact afterArgument_closing hc

theorem Course.read (h : Course g ts r) : Course g ts (g.read ts) := h.read_eq ▸ h

-- There is a course wherever the parser can be asked to read. That it comes to an end is shown once, by its
-- own recursion; which rules make up the course is then for the outcomes of its parts to tell.
theorem courses :
    (∀ power ts, Course (.expression power) ts (expression power ts).outcome) ∧
    (∀ power left ts, Course (.extension power left) ts (extend power left ts).outcome) ∧
    (∀ t ts, Course (.operand t) ts (operand t ts).outcome) ∧
    (∀ opened ts, Course (.arguments opened) ts (arguments opened ts).outcome) ∧
    (∀ opened ts, Course (.someArguments opened) ts (someArguments opened ts).outcome) := by
  apply expression.mutual_induct
    (fun power ts => Course (.expression power) ts (expression power ts).outcome)
    (fun power left ts => Course (.extension power left) ts (extend power left ts).outcome)
    (fun t ts => Course (.operand t) ts (operand t ts).outcome)
    (fun opened ts => Course (.arguments opened) ts (arguments opened ts).outcome)
    (fun opened ts => Course (.someArguments opened) ts (someArguments opened ts).outcome)
  -- expression
  case case1 => exact fun power => .read <| .operandError (.unexpected rfl (by decide) (by decide))
  case case2 =>
    intro power t ts ho he
    cases h : (operand t ts).outcome <;> rw [h] at ho
    case error => exact .read <| .operandError ho
    case ok p  => exact .read <| .expression ho (he p.1 p.2 (Parsed.length_lt h))
  -- extend
  case case3 => exact fun power left => .read <| .stop (Nat.zero_le power)
  case case4 =>
    intro power left t ts hp op ht hr he
    rw [ht] at hp
    cases h : (expression op.rightPower ts).outcome <;> rw [h] at hr
    case error => exact .read <| .rightError ht hp hr
    case ok p  => exact .read <| .operator ht hp hr (he p.1 p.2 (Parsed.length_lt h))
  case case5 =>
    intro power left t ts hp ht hr he
    rw [ht] at hp
    cases Nat.lt_one_iff.mp hp
    cases hd : definition left t.line
    case error     => exact .read <| .badDefinition ht hd
    case ok define =>
      cases h : (expression innerPower ts).outcome <;> rw [h] at hr
      case error => exact .read <| .definedError ht hd hr
      case ok p  => exact .read <| .definition ht hd hr (he define p.1 p.2 (Parsed.length_lt h))
  case case6 =>
    intro power left t ts hp ho he
    cases extends_cases hp
    case inl h => exact h.elim fun op h => (ho op h).elim
    case inr h => exact (he h).elim
  case case7 => exact fun power left t ts hp => .read <| .stop (Nat.le_of_not_lt hp)
  -- operand
  case case8  => exact fun t ts x ht => .read <| .number ht
  case case9  => exact fun t s ht line ts ha => .read <| .call ht rfl ha
  case case10 => exact fun t s ht ts h => .read <| .name ht (current_ne (by decide) h)
  case case11 =>
    intro t ts ht he
    cases h : (expression innerPower ts).outcome <;> rw [h] at he
    case error => exact .read <| .innerError ht he
    case ok    => exact .read <| .group ht he
  case case12 => exact fun t ts ht he => .read <| .negation ht he
  case case13 => exact fun t ts mark ho hs ht => .read <| .unexpected ht ho hs
  -- arguments
  case case14 => exact fun opened line ts => .read <| .noArguments rfl
  case case15 => exact fun opened ts h hs => .read <| .arguments (current_ne (by decide) h) hs
  case case16 =>
    intro opened ts he hs
    cases h : (expression innerPower ts).outcome <;> rw [h] at he
    case error => exact .read <| .argumentError he
    case ok p  =>
      have hl : p.2.length < ts.length := Parsed.length_lt h
      by_cases hc : (current p.2).value = .mark .comma
      case neg => exact .read <| .lastArgument he hc
      case pos =>
        obtain ⟨arg, _ | ⟨⟨_, line⟩, ts₁⟩⟩ := p <;> cases hc
        exact .read <| .argument he rfl (hs line ts₁ hl)

theorem course_iff : Course g ts r ↔ g.read ts = r := by
  refine ⟨Course.read_eq, fun h => ?_⟩
  subst h
  cases g
  case expression power     => exact courses.1 power ts
  case extension power left => exact courses.2.1 power left ts
  case operand t            => exact courses.2.2.1 t ts
  case arguments opened     => exact courses.2.2.2.1 opened ts
  case someArguments opened => exact courses.2.2.2.2 opened ts

theorem ProgramCourse.parse_eq {r : Except SyntaxError (List Expr)} (h : ProgramCourse ts r) :
    parse ts = r := by
  induction h
  case finish hf               => exact parse_of_finish hf
  case statementError hf he    => rw [parse_of_not_finish hf, ← Goal.read, he.read_eq]; rfl
  case statement r hf he _ hi  => rw [parse_of_not_finish hf, ← Goal.read, he.read_eq, ← hi]; rfl

theorem programCourse (ts : List Lexeme) : ProgramCourse ts (parse ts) := by
  induction ts using parse.induct
  case case1 => rw [parse_nil]; exact .finish rfl
  case case2 => rw [parse_finish rfl]; exact .finish rfl
  case case3 t ts ht hi =>
    have hf : (current (t :: ts)).value ≠ .mark .finish := fun hc => ht t.line (by rw [← hc]; rfl)
    have hc := course_iff.mpr (rfl : (Goal.expression 0).read (t :: ts) = _)
    cases he : (expression 0 (t :: ts)).outcome <;> simp only [Goal.read, he] at hc
    case error => exact (ProgramCourse.statementError hf hc).parse_eq ▸ .statementError hf hc
    case ok p  =>
      have h := ProgramCourse.statement hf hc (hi p.2 (Parsed.length_lt he))
      exact h.parse_eq ▸ h

end Calculator.Parse
