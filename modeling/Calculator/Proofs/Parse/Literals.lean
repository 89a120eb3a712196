import Calculator.Proofs.Parse.Leftover
import Calculator.Proofs.Parse.Statement

/-!
# Literals

The parser makes no numbers. What holds of all numbers among the tokens holds of all numbers in the program
that they are parsed to.
-/

namespace Calculator

-- All numbers in an expression are such.
inductive Expr.Literals (P : Number → Prop) : Expr → Prop
  | number {x line} : P x → Literals P (.number x line)
  | name {s line} : Literals P (.name s line)
  | negate {e line} : Literals P e → Literals P (.negate e line)
  | binary {op left right line} :
    Literals P left → Literals P right → Literals P (.binary op left right line)
  | call {s args line} : (∀ e ∈ args, Literals P e) → Literals P (.call s args line)
  | assign {s e line} : Literals P e → Literals P (.assign s e line)
  | declare {s params body line} : Literals P body → Literals P (.declare s params body line)

def TokenLiterals (P : Number → Prop) (ts : List Lexeme) : Prop := ∀ t ∈ ts, ∀ x, t.value = .number x → P x

variable {P : Number → Prop} {t : Lexeme} {ts rest : List Lexeme} {left arg e : Expr} {power opened line : Nat}
  {program : List Expr}

namespace TokenLiterals

theorem tail (h : TokenLiterals P (t :: ts)) : TokenLiterals P ts :=
  fun u hu => h u (List.mem_cons_of_mem _ hu)

theorem leaves (h : TokenLiterals P ts) (hl : Parse.Leaves ts rest) : TokenLiterals P rest :=
  fun u hu => h u (hl.suffix.mem hu)

end TokenLiterals

namespace Parse

theorem definition_literals {define : Expr → Expr} (h : definition left line = .ok define)
    (he : e.Literals P) : (define e).Literals P := by
  unfold definition at h
  split at h
  case _ => cases h; exact .assign he
  case _ =>
    split at h
    case _ => cases h; exact .declare he
    case _ => cases h
  case _ => cases h

theorem afterArgument_literals (ha : arg.Literals P)
    (hs : ∀ t us, ts = t :: us → Yields (someArguments opened us).outcome (∀ e ∈ ·, e.Literals P)) :
    Yields (afterArgument opened arg ts) (∀ e ∈ ·, e.Literals P) := by
  unfold afterArgument
  split
  case _ ts =>
    refine (hs _ ts rfl).bind fun args rest _ h => .ok ?_
    simpa using ⟨ha, h⟩
  case _ =>
    refine closing_yields ?_
    simpa using ha

theorem literals :
    (∀ power ts, TokenLiterals P ts → Yields (expression power ts).outcome (Expr.Literals P)) ∧
    (∀ power left ts, TokenLiterals P ts → left.Literals P →
      Yields (extend power left ts).outcome (Expr.Literals P)) ∧
    (∀ t ts, TokenLiterals P (t :: ts) → Yields (operand t ts).outcome (Expr.Literals P)) ∧
    (∀ opened ts, TokenLiterals P ts → Yields (arguments opened ts).outcome (∀ e ∈ ·, e.Literals P)) ∧
    (∀ opened ts, TokenLiterals P ts → Yields (someArguments opened ts).outcome (∀ e ∈ ·, e.Literals P)) := by
  apply expression.mutual_induct
  -- expression
  case case1 => exact fun power _ => expression_nil ▸ .error
  case case2 =>
    intro power t ts ho he ht
    rw [expression_cons]
    refine (ho ht).bind fun left ts₁ h hl => ?_
    exact he left _ (Parsed.length_lt h) (ht.tail.leaves (operand_leaves h)) hl
  -- extend
  case case3 =>
    intro power left _ hl
    rw [extend_stop (Nat.zero_le power)]
    exact .ok hl
  case case4 =>
    intro power left t ts hp op ht hr he hts hl
    rw [ht] at hp
    rw [extend_operator ht hp]
    refine (hr hts.tail).bind fun right ts₁ h hr => ?_
    exact he right _ (Parsed.length_lt h) (hts.tail.leaves (expression_leaves h)) (.binary hl hr)
  case case5 =>
    intro power left t ts hp ht hr he hts hl
    rw [ht] at hp
    cases Nat.lt_one_iff.mp hp
    rw [extend_equals ht]
    cases hd : definition left t.line
    case error => exact .error
    case ok define =>
      refine (hr hts.tail).bind fun right ts₁ h hr => ?_
      have hs := definition_literals hd hr
      exact he define right _ (Parsed.length_lt h) (hts.tail.leaves (expression_leaves h)) hs
  case case6 =>
    intro power left t ts hp ho he
    cases extends_cases hp
    case inl h => exact h.elim fun op h => (ho op h).elim
    case inr h => exact (he h).elim
  case case7 =>
    intro power left t ts hp _ hl
    rw [extend_stop (Nat.le_of_not_lt hp)]
    exact .ok hl
  -- operand
  case case8 => exact fun t ts x ht hts => operand_number ht ▸ .ok (.number (hts t List.mem_cons_self x ht))
  case case9 =>
    intro t s ht line ts ha hts
    rw [operand_call ht rfl]
    exact (ha hts.tail.tail).bind fun args rest _ ha => .ok (.call ha)
  case case10 =>
    intro t s ht ts h _
    rw [operand_name ht (current_ne (by decide) h)]
    exact .ok .name
  case case11 =>
    intro t ts ht he hts
    rw [operand_group ht]
    exact (he hts.tail).bind fun inner ts₁ _ hi => closing_yields hi
  case case12 =>
    intro t ts ht he hts
    rw [operand_negation ht]
    exact (he hts.tail).bind fun inner rest _ hi => .ok (.negate hi)
  case case13 => exact fun t ts mark ho hs ht _ => operand_unexpected ht ho hs ▸ .error
  -- arguments
  case case14 =>
    intro opened line ts _
    rw [arguments_none rfl]
    exact .ok (List.forall_mem_nil _)
  case case15 =>
    intro opened ts h hs
    rw [arguments_some (current_ne (by decide) h)]
    exact hs
  case case16 =>
    intro opened ts he hs hts
    rw [someArguments_outcome]
    refine (he hts).bind fun arg ts₁ h ha => afterArgument_literals ha fun t ts₂ ht => ?_
    subst ht
    have hl : (t :: ts₂).length < ts.length := Parsed.length_lt h
    exact hs t.line ts₂ hl (hts.leaves (expression_leaves h)).tail

end Parse

open Parse

theorem parse_literals (ht : TokenLiterals P ts) (h : parse ts = .ok program) : ∀ s ∈ program, s.Literals P := by
  induction ts using parse.induct generalizing program
  case case1 => rw [parse_nil] at h; cases h; exact List.forall_mem_nil _
  case case2 => rw [parse_finish rfl] at h; cases h; exact List.forall_mem_nil _
  case case3 t ts hn hi =>
    replace hn : t.value ≠ .mark .finish := fun hc => hn t.line (by rw [← hc])
    rw [parse_cons hn] at h
    obtain ⟨⟨first, rest⟩, hf, h⟩ := bind_eq_ok h
    obtain ⟨others, ho, h⟩ := bind_eq_ok h
    cases h
    have hs := literals.left 0 _ ht first rest hf
    exact List.forall_mem_cons.mpr ⟨hs, hi rest (Parsed.length_lt hf) (ht.leaves (expression_leaves hf)) ho⟩

end Calculator
