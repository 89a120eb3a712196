import Calculator.Proofs.Parse.Outcome

/-!
# Statements

The parser puts assignments and declarations nowhere but at the top of a statement. What stands below
them, and any other statement, is plain: it neither assigns nor declares.
-/

namespace Calculator

namespace Expr

inductive Plain : Expr → Prop
  | number {x line} : Plain (.number x line)
  | name {s line} : Plain (.name s line)
  | negate {e line} : Plain e → Plain (.negate e line)
  | binary {op left right line} : Plain left → Plain right → Plain (.binary op left right line)
  | call {s args line} : (∀ e ∈ args, Plain e) → Plain (.call s args line)

inductive Statement : Expr → Prop
  | value {e} : Plain e → Statement e
  | assign {s e line} : Plain e → Statement (.assign s e line)
  | declare {s params body line} : Plain body → Statement (.declare s params body line)

end Expr

namespace Parse

variable {α β : Type}

-- What is read has a property, if reading succeeds.
def Yields (p : Except SyntaxError (α × List Lexeme)) (P : α → Prop) : Prop :=
  ∀ a rest, p = .ok (a, rest) → P a

namespace Yields

variable {p : Except SyntaxError (α × List Lexeme)}
  {f : α × List Lexeme → Except SyntaxError (β × List Lexeme)} {P : α → Prop} {Q : β → Prop}

theorem ok {a : α} {rest : List Lexeme} (h : P a) : Yields (.ok (a, rest)) P
  | _, _, rfl => h

theorem error {e : SyntaxError} : Yields (.error e) P := nofun

theorem bind (h : Yields p P)
    (hf : ∀ a rest, p = .ok (a, rest) → P a → Yields (f (a, rest)) Q) : Yields (p >>= f) Q := by
  intro b rest hb
  have ⟨⟨a, rest₁⟩, hp, hb⟩ := bind_eq_ok hb
  exact hf a rest₁ hp (h a rest₁ hp) b rest hb

end Yields

-- At power 0 a statement is read, above it an operand.
def Fits (power : Nat) (e : Expr) : Prop := e.Plain ∨ power = 0 ∧ e.Statement

-- An expression that the next token may still extend. An assignment or declaration has taken in all
-- operators already.
def Extensible (power : Nat) (left : Expr) (ts : List Lexeme) : Prop :=
  left.Plain ∨ power = 0 ∧ left.Statement ∧ (current ts).value.leftPower ≤ innerPower

section

variable {ts : List Lexeme} {left e : Expr} {power line : Nat}

theorem Extensible.fits (h : Extensible power left ts) : Fits power left :=
  h.imp_right fun h => ⟨h.left, h.right.left⟩

theorem leftPower_gt {op : Operator} : innerPower < op.leftPower := by
  cases op <;> decide

theorem rightPower_ne_zero {op : Operator} : op.rightPower ≠ 0 := by
  cases op <;> decide

theorem Extensible.plain {t : Lexeme} {op : Operator} (h : Extensible power left (t :: ts))
    (ht : t.value = .mark (.operator op)) : left.Plain := by
  refine h.resolve_right fun h => ?_
  have hp := h.right.right
  rw [current_cons, ht] at hp
  exact absurd hp (Nat.not_le.mpr leftPower_gt)

theorem Fits.plain (h : Fits power e) (hp : power ≠ 0) : e.Plain :=
  h.resolve_right fun h => hp h.left

theorem definition_statement {define : Expr → Expr} (h : definition left line = .ok define)
    (he : e.Plain) : (define e).Statement := by
  unfold definition at h
  split at h
  case _ => cases h; exact .assign he
  case _ =>
    split at h
    case _ => cases h; exact .declare he
    case _ => cases h
  case _ => cases h

theorem closing_yields {α : Type} {inner : α} {P : α → Prop} (h : P inner) :
    Yields (closing line inner ts).outcome P := by
  unfold closing
  split
  case _ => exact .ok h
  case _ => exact .error

theorem afterArgument_yields {opened : Nat} {arg : Expr} (ha : arg.Plain)
    (hs : ∀ t us, ts = t :: us → Yields (someArguments opened us).outcome (∀ e ∈ ·, e.Plain)) :
    Yields (afterArgument opened arg ts) (∀ e ∈ ·, e.Plain) := by
  unfold afterArgument
  split
  case _ ts =>
    refine (hs _ ts rfl).bind fun args rest _ h => .ok ?_
    simpa using ⟨ha, h⟩
  case _ =>
    refine closing_yields ?_
    simpa using ha

theorem yields :
    (∀ power ts, Yields (expression power ts).outcome (Fits power)) ∧
    (∀ power left ts, Extensible power left ts → Yields (extend power left ts).outcome (Fits power)) ∧
    (∀ t ts, Yields (operand t ts).outcome Expr.Plain) ∧
    (∀ opened ts, Yields (arguments opened ts).outcome (∀ e ∈ ·, e.Plain)) ∧
    (∀ opened ts, Yields (someArguments opened ts).outcome (∀ e ∈ ·, e.Plain)) := by
  apply expression.mutual_induct
    (fun power ts => Yields (expression power ts).outcome (Fits power))
    (fun power left ts => Extensible power left ts → Yields (extend power left ts).outcome (Fits power))
    (fun t ts => Yields (operand t ts).outcome Expr.Plain)
    (fun opened ts => Yields (arguments opened ts).outcome (∀ e ∈ ·, e.Plain))
    (fun opened ts => Yields (someArguments opened ts).outcome (∀ e ∈ ·, e.Plain))
  -- expression
  case case1 => exact fun power => expression_nil ▸ .error
  case case2 =>
    intro power t ts ho he
    rw [expression_cons]
    exact ho.bind fun left ts₁ h hl => he left _ (Parsed.length_lt h) (.inl hl)
  -- extend
  case case3 =>
    intro power left hl
    rw [extend_stop (Nat.zero_le power)]
    exact .ok hl.fits
  case case4 =>
    intro power left t ts hp op ht hr he hl
    rw [ht] at hp
    rw [extend_operator ht hp]
    refine hr.bind fun right ts₁ h hr => he right _ (Parsed.length_lt h) (.inl ?_)
    exact .binary (hl.plain ht) (hr.plain rightPower_ne_zero)
  case case5 =>
    intro power left t ts hp ht hr he hl
    rw [ht] at hp
    cases Nat.lt_one_iff.mp hp
    rw [extend_equals ht]
    cases hd : definition left t.line
    case error => exact .error
    case ok define =>
      refine hr.bind fun right ts₁ h hr => he define right _ (Parsed.length_lt h) ?_
      have hs := definition_statement hd (hr.plain (by decide))
      exact .inr ⟨rfl, hs, expression_stops h⟩
  case case6 =>
    intro power left t ts hp ho he
    cases extends_cases hp
    case inl h => exact h.elim fun op h => (ho op h).elim
    case inr h => exact (he h).elim
  case case7 =>
    intro power left t ts hp hl
    rw [extend_stop (Nat.le_of_not_lt hp)]
    exact .ok hl.fits
  -- operand
  case case8 => exact fun t ts x ht => operand_number ht ▸ .ok .number
  case case9 =>
    intro t s ht line ts ha
    rw [operand_call ht rfl]
    exact ha.bind fun args rest _ ha => .ok (.call ha)
  case case10 =>
    intro t s ht ts h
    rw [operand_name ht (current_ne nofun h)]
    exact .ok .name
  case case11 =>
    intro t ts ht he
    rw [operand_group ht]
    exact he.bind fun inner ts₁ _ hi => closing_yields (hi.plain (by decide))
  case case12 =>
    intro t ts ht he
    rw [operand_negation ht]
    exact he.bind fun inner rest _ hi => .ok (.negate (hi.plain (by decide)))
  case case13 => exact fun t ts mark ho hs ht => operand_unexpected ht ho hs ▸ .error
  -- arguments
  case case14 =>
    intro opened line ts
    rw [arguments_none rfl]
    exact .ok nofun
  case case15 =>
    intro opened ts h hs
    rw [arguments_some (current_ne nofun h)]
    exact hs
  case case16 =>
    intro opened ts he hs
    rw [someArguments_outcome]
    refine he.bind fun arg ts₁ h ha => ?_
    refine afterArgument_yields (ha.plain (by decide)) fun t ts₂ ht => ?_
    subst ht
    have hl : (t :: ts₂).length < ts.length := Parsed.length_lt h
    exact hs t.line ts₂ hl

end

end Parse

open Parse

variable {ts : List Lexeme} {program : List Expr}

theorem expression_statement : Yields (expression 0 ts).outcome Expr.Statement := by
  intro e rest h
  cases yields.left 0 ts e rest h
  case inl h => exact .value h
  case inr h => exact h.right

theorem parse_statements (h : parse ts = .ok program) : ∀ s ∈ program, s.Statement := by
  induction hn : ts.length using Nat.strongRecOn generalizing ts program
  case ind n hi =>
    subst hn
    match ts with
    | [] => rw [parse_nil] at h; cases h; exact nofun
    | t :: ts =>
      by_cases ht : t.value = .mark .finish
      case pos => rw [parse_finish ht] at h; cases h; exact nofun
      case neg =>
        rw [parse_cons ht] at h
        have ⟨⟨first, rest⟩, hf, h⟩ := bind_eq_ok h
        have ⟨others, ho, h⟩ := bind_eq_ok h
        cases h
        have hs := expression_statement first rest hf
        have hr := hi _ (Parsed.length_lt hf) ho rfl
        simpa using ⟨hs, hr⟩

end Calculator
