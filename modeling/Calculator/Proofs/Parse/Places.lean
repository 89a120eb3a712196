import Calculator.Proofs.Parse.Leftover

/-!
# Places in a program

Whatever the parser says about a line can be found there. The names that an expression reads or calls
stand on its lines among the tokens, and the line of an error holds the token to blame.
-/

namespace Calculator

-- The name stands on the line, right before an open parenthesis.
def CalledOn (ts : List Lexeme) (name : String) (line : Nat) : Prop :=
  ∃ l, [⟨.name name, line⟩, ⟨.mark .openParen, l⟩] <:+: ts

inductive Expr.Placed (ts : List Lexeme) : Expr → Prop
  | number {x line} : Placed ts (.number x line)
  | name {s line} : ⟨.name s, line⟩ ∈ ts → Placed ts (.name s line)
  | negate {e line} : Placed ts e → Placed ts (.negate e line)
  | binary {op left right line} :
    Placed ts left → Placed ts right → Placed ts (.binary op left right line)
  | call {s args line} :
    CalledOn ts s line → (∀ e ∈ args, Placed ts e) → Placed ts (.call s args line)
  | assign {s e line} : Placed ts e → Placed ts (.assign s e line)
  | declare {s params body line} : Placed ts body → Placed ts (.declare s params body line)

-- A parenthesis that is not closed belongs to a group or to a call.
inductive SyntaxFault.Placed (ts : List Lexeme) (line : Nat) : SyntaxFault → Prop
  | unexpected {m} : ⟨.mark m, line⟩ ∈ ts → Placed ts line (.unexpected m)
  | group : ⟨.mark .openParen, line⟩ ∈ ts → Placed ts line .unclosed
  | call {s} : CalledOn ts s line → Placed ts line .unclosed
  | badParameter : ⟨.mark .equals, line⟩ ∈ ts → Placed ts line .badParameter
  | badTarget : ⟨.mark .equals, line⟩ ∈ ts → Placed ts line .badTarget

namespace Parse

variable {α β : Type} {all ts rest : List Lexeme} {t : Lexeme} {left arg : Expr} {power opened line : Nat}

-- What is left to read of all tokens. The end of the source is still to come.
structure Part (all ts : List Lexeme) : Prop where
  suffix : ts <:+ all
  ended  : Ended ts

namespace Part

theorem mem (h : Part all (t :: ts)) : t ∈ all := h.suffix.mem List.mem_cons_self

theorem after (h : Part all ts) (hl : Leaves ts rest) : Part all rest where
  suffix := hl.suffix.trans h.suffix
  ended  := hl.ended h.ended

theorem tail (h : Part all (t :: ts)) (ht : t.value ≠ .mark .finish) : Part all ts :=
  h.after ⟨[t], rfl, .cons .nil ht⟩

end Part

-- The result has a property, or else the error is in its place.
def Places (all : List Lexeme) (P : α → Prop) : Except SyntaxError α → Prop
  | .ok a    => P a
  | .error e => e.value.Placed all e.line

theorem Places.bind {P : α → Prop} {Q : β → Prop} {p : Except SyntaxError α}
    {next : α → Except SyntaxError β} (h : Places all P p)
    (hn : ∀ a, p = .ok a → P a → Places all Q (next a)) : Places all Q (p >>= next) := by
  match p with
  | .ok a    => exact hn a rfl h
  | .error _ => exact h

theorem Places.bind_read {P : α × List Lexeme → Prop} {Q : β → Prop}
    {p : Except SyntaxError (α × List Lexeme)} {next : α × List Lexeme → Except SyntaxError β}
    (h : Places all P p)
    (hn : ∀ a rest, p = .ok (a, rest) → P (a, rest) → Places all Q (next (a, rest))) :
    Places all Q (p >>= next) :=
  h.bind fun read => hn read.1 read.2

theorem definition_places (h : left.Placed all) (ht : ⟨.mark .equals, line⟩ ∈ all) :
    Places all (fun define => ∀ e, e.Placed all → (define e).Placed all) (definition left line) := by
  cases h
  case name => exact fun _ => .assign
  case call s args _ _ _ =>
    rw [definition]
    cases args.mapM Expr.name?
    case none => exact .badParameter ht
    case some => exact fun _ => .declare
  all_goals exact .badTarget ht

theorem closing_places {P : α → Prop} {inner : α} (h : P inner)
    (ho : SyntaxFault.unclosed.Placed all opened) :
    Places all (fun read => P read.1) (closing opened inner ts).outcome := by
  unfold closing
  split
  case _ => exact h
  case _ => exact ho

theorem afterArgument_places (ha : arg.Placed all) (ho : SyntaxFault.unclosed.Placed all opened)
    (hs : ∀ t us, ts = t :: us → t.value ≠ .mark .finish →
      Places all (fun read => ∀ e ∈ read.1, e.Placed all) (someArguments opened us).outcome) :
    Places all (fun read => ∀ e ∈ read.1, e.Placed all) (afterArgument opened arg ts) := by
  unfold afterArgument
  split
  case _ =>
    exact (hs _ _ rfl (by simp)).bind fun _ _ h => List.forall_mem_cons.mpr ⟨ha, h⟩
  case _ =>
    exact closing_places (P := fun es : List Expr => ∀ e ∈ es, e.Placed all) (by simpa using ha) ho

theorem places :
    (∀ power ts, Part all ts → Places all (·.1.Placed all) (expression power ts).outcome) ∧
    (∀ power left ts, Part all ts → left.Placed all →
      Places all (·.1.Placed all) (extend power left ts).outcome) ∧
    (∀ t ts, Part all (t :: ts) → Places all (·.1.Placed all) (operand t ts).outcome) ∧
    (∀ opened ts, Part all ts → SyntaxFault.unclosed.Placed all opened →
      Places all (∀ e ∈ ·.1, e.Placed all) (arguments opened ts).outcome) ∧
    (∀ opened ts, Part all ts → SyntaxFault.unclosed.Placed all opened →
      Places all (∀ e ∈ ·.1, e.Placed all) (someArguments opened ts).outcome) := by
  apply expression.mutual_induct
  -- expression
  case case1 => exact fun power hp => absurd hp.ended not_ended_nil
  case case2 =>
    intro power t ts ho he hp
    rw [expression_cons]
    refine (ho hp).bind_read fun left ts₁ h hl => ?_
    have hp₁ := hp.tail (begins_of_operand h).ne_finish
    exact he left _ (Parsed.length_lt h) (hp₁.after (operand_leaves h)) hl
  -- extend
  case case3 => exact fun power left hp => absurd hp.ended not_ended_nil
  case case4 =>
    intro power left t ts hp op ht hr he hp₁ hl
    rw [ht] at hp
    have hp₁ := hp₁.tail (by simp [ht])
    rw [extend_operator ht hp]
    exact (hr hp₁).bind_read fun right ts₁ h hr =>
      he right _ (Parsed.length_lt h) (hp₁.after (expression_leaves h)) (.binary hl hr)
  case case5 =>
    intro power left t ts hp ht hr he hp₁ hl
    rw [ht] at hp
    cases Nat.lt_one_iff.mp hp
    have hm : ⟨.mark .equals, t.line⟩ ∈ all := ht ▸ hp₁.mem
    have hp₁ := hp₁.tail (by simp [ht])
    rw [extend_equals ht]
    exact (definition_places hl hm).bind fun define _ hd =>
      (hr hp₁).bind_read fun right ts₁ h hr =>
        he define right _ (Parsed.length_lt h) (hp₁.after (expression_leaves h)) (hd right hr)
  case case6 =>
    intro power left t ts hp ho he
    cases extends_cases hp
    case inl h => exact h.elim fun op h => (ho op h).elim
    case inr h => exact (he h).elim
  case case7 =>
    intro power left t ts hp _ hl
    rw [extend_stop (Nat.le_of_not_lt hp)]
    exact hl
  -- operand
  case case8 => exact fun t ts x ht _ => operand_number ht ▸ .number
  case case9 =>
    intro t s ht line ts ha hp
    have hc : CalledOn all s t.line :=
      ⟨line, (List.prefix_append [⟨.name s, t.line⟩, ⟨.mark .openParen, line⟩] ts).isInfix.trans
        (ht ▸ hp.suffix.isInfix)⟩
    rw [operand_call ht rfl]
    exact (ha ((hp.tail (by simp [ht])).tail (by simp)) (.call hc)).bind fun _ _ ha => .call hc ha
  case case10 =>
    intro t s ht ts h hp
    rw [operand_name ht (current_ne (by decide) h)]
    exact .name (ht ▸ hp.mem)
  case case11 =>
    intro t ts ht he hp
    rw [operand_group ht]
    exact (he (hp.tail (by simp [ht]))).bind fun _ _ hi => closing_places hi (.group (ht ▸ hp.mem))
  case case12 =>
    intro t ts ht he hp
    rw [operand_negation ht]
    exact (he (hp.tail (by simp [ht]))).bind fun _ _ hi => .negate hi
  case case13 =>
    intro t ts mark ho hs ht hp
    rw [operand_unexpected ht ho hs]
    exact .unexpected (ht ▸ hp.mem)
  -- arguments
  case case14 =>
    intro opened line ts _ _
    rw [arguments_none rfl]
    exact List.forall_mem_nil _
  case case15 =>
    intro opened ts h hs
    rw [arguments_some (current_ne (by decide) h)]
    exact hs
  case case16 =>
    intro opened ts he hs hp ho
    rw [someArguments_outcome]
    refine (he hp).bind_read fun arg ts₁ h ha => afterArgument_places ha ho fun t ts₂ ht hn => ?_
    subst ht
    have hl : (t :: ts₂).length < ts.length := Parsed.length_lt h
    exact hs t.line ts₂ hl ((hp.after (expression_leaves h)).tail hn) ho

theorem Part.parse_places (h : Part all ts) : Places all (∀ s ∈ ·, s.Placed all) (parse ts) := by
  induction ts using parse.induct
  case case1 => exact absurd h.ended not_ended_nil
  case case2 => rw [parse_finish rfl]; exact List.forall_mem_nil _
  case case3 t ts ht hi =>
    replace ht : t.value ≠ .mark .finish := fun hc => ht t.line (by rw [← hc])
    have hp : Places all (·.1.Placed all) (expression 0 (t :: ts)).outcome := places.left 0 _ h
    rw [parse_cons ht]
    refine hp.bind_read fun first rest he hf => ?_
    refine (hi rest (Parsed.length_lt he) (h.after (expression_leaves he))).bind fun others _ ho => ?_
    exact List.forall_mem_cons.mpr ⟨hf, ho⟩

end Parse

end Calculator
