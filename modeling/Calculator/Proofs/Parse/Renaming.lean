import Calculator.Proofs.Parse.Leftover

/-!
# Renaming programs

Names and lines mean nothing to the parser. If the tokens of a program get other names and other lines,
its trees and its error get them too, and nothing else about them changes.
-/

namespace Calculator

variable {α β γ δ : Type}

section

variable (r : String → String) (g : Nat → Nat)

def Located.mapLine (x : Located α) : Located α := ⟨x.value, g x.line⟩

def Token.rename : Token → Token
  | name s => name (r s)
  | t      => t

def Lexeme.rename (t : Lexeme) : Lexeme := ⟨t.value.rename r, g t.line⟩

namespace Expr

mutual

def rename : Expr → Expr
  | number x line              => number x (g line)
  | name s line                => name (r s) (g line)
  | negate e line              => negate e.rename (g line)
  | binary op left right line  => binary op left.rename right.rename (g line)
  | call s args line           => call (r s) (renameAll args) (g line)
  | assign s e line            => assign (r s) e.rename (g line)
  | declare s params body line => declare (r s) (params.map r) body.rename (g line)

def renameAll : List Expr → List Expr
  | []      => []
  | e :: es => e.rename :: renameAll es

end

theorem renameAll_eq (es : List Expr) : renameAll r g es = es.map (rename r g) := by
  induction es
  case nil     => rfl
  case cons hi => rw [renameAll, hi, List.map_cons]

end Expr

end

variable {r : String → String} {g : Nat → Nat}

namespace Parse

-- What is read from tokens and from the same tokens with other names and lines.
inductive Renames (r : String → String) (g : Nat → Nat) (f : α → β) :
    Except SyntaxError (α × List Lexeme) → Except SyntaxError (β × List Lexeme) → Prop
  | ok (a rest) : Renames r g f (.ok (a, rest)) (.ok (f a, rest.map (Lexeme.rename r g)))
  | error (e) : Renames r g f (.error e) (.error (e.mapLine g))

theorem Renames.bind {f : α → β} {h : γ → δ} {p : Except SyntaxError (α × List Lexeme)}
    {p' : Except SyntaxError (β × List Lexeme)}
    {next : α × List Lexeme → Except SyntaxError (γ × List Lexeme)}
    {next' : β × List Lexeme → Except SyntaxError (δ × List Lexeme)} (hp : Renames r g f p p')
    (hn : ∀ a rest, p = .ok (a, rest) →
      Renames r g h (next (a, rest)) (next' (f a, rest.map (Lexeme.rename r g)))) :
    Renames r g h (p >>= next) (p' >>= next') := by
  cases hp
  case ok a rest => exact hn a rest rfl
  case error e   => exact .error e

variable {ts : List Lexeme} {t : Lexeme} {mark : Mark} {left arg e : Expr} {line opened power : Nat}

theorem rename_eq_mark : (t.rename r g).value = .mark mark ↔ t.value = .mark mark := by
  rw [Lexeme.rename]
  cases t.value <;> simp [Token.rename]

theorem leftPower_rename : (t.rename r g).value.leftPower = t.value.leftPower := by
  rw [Lexeme.rename]
  cases t.value <;> rfl

theorem current_rename :
    (current (ts.map (Lexeme.rename r g))).value = ((current ts).rename r g).value := by
  cases ts <;> rfl

theorem current_rename_eq_mark :
    (current (ts.map (Lexeme.rename r g))).value = .mark mark ↔ (current ts).value = .mark mark := by
  rw [current_rename, rename_eq_mark]

theorem extend_stop_rename (h : (current ts).value.leftPower ≤ power) :
    Renames r g (Expr.rename r g) (extend power left ts).outcome
      (extend power (left.rename r g) (ts.map (Lexeme.rename r g))).outcome := by
  have h' : (current (ts.map (Lexeme.rename r g))).value.leftPower ≤ power := by
    rwa [current_rename, leftPower_rename]
  rw [extend_stop h, extend_stop h']
  exact .ok left ts

theorem name?_rename : (e.rename r g).name? = e.name?.map r := by
  cases e <;> rfl

theorem names_rename {args : List Expr} :
    (args.map (Expr.rename r g)).mapM Expr.name? = (args.mapM Expr.name?).map (List.map r) := by
  induction args
  case nil => rfl
  case cons e args hi =>
    rw [List.map_cons, List.mapM_cons, List.mapM_cons, name?_rename, hi]
    cases e.name? <;> cases args.mapM Expr.name? <;> rfl

theorem definition_rename_error {err : SyntaxError} (h : definition left line = .error err) :
    definition (left.rename r g) (g line) = .error (err.mapLine g) := by
  cases left
  case name => cases h
  case call s args _ =>
    simp only [definition, Expr.rename, Expr.renameAll_eq, names_rename] at *
    cases hn : args.mapM Expr.name?
    case none => rw [hn] at h; cases h; rfl
    case some => rw [hn] at h; cases h
  all_goals cases h; rfl

theorem definition_rename_ok {define : Expr → Expr} (h : definition left line = .ok define) :
    ∃ define', definition (left.rename r g) (g line) = .ok define' ∧
      ∀ e, define' (e.rename r g) = (define e).rename r g := by
  cases left
  case name => cases h; exact ⟨_, rfl, fun _ => rfl⟩
  case call s args _ =>
    simp only [definition, Expr.rename, Expr.renameAll_eq, names_rename] at *
    cases hn : args.mapM Expr.name?
    case none => rw [hn] at h; cases h
    case some => rw [hn] at h; cases h; exact ⟨_, rfl, fun _ => rfl⟩
  all_goals cases h

theorem closing_rename {inner : α} (f : α → β) :
    Renames r g f (closing opened inner ts).outcome
      (closing (g opened) (f inner) (ts.map (Lexeme.rename r g))).outcome := by
  by_cases hc : (current ts).value = .mark .closeParen
  case pos =>
    match ts with
    | []      => cases hc
    | t :: ts =>
      rw [current_cons] at hc
      rw [List.map_cons, closing_paren (rename_eq_mark.mpr hc), closing_paren hc]
      exact .ok inner ts
  case neg =>
    rw [closing_missing (mt current_rename_eq_mark.mp hc), closing_missing hc]
    exact .error _

theorem afterArgument_rename
    (hs : ∀ t us, ts = t :: us → t.value ≠ .mark .finish →
      Renames r g (List.map (Expr.rename r g)) (someArguments opened us).outcome
        (someArguments (g opened) (us.map (Lexeme.rename r g))).outcome) :
    Renames r g (List.map (Expr.rename r g)) (afterArgument opened arg ts)
      (afterArgument (g opened) (arg.rename r g) (ts.map (Lexeme.rename r g))) := by
  by_cases hc : (current ts).value = .mark .comma
  case neg =>
    rw [afterArgument_closing (mt current_rename_eq_mark.mp hc), afterArgument_closing hc]
    exact closing_rename (List.map (Expr.rename r g))
  case pos =>
    match ts with
    | []      => cases hc
    | t :: us =>
      rw [current_cons] at hc
      rw [List.map_cons, afterArgument_comma (rename_eq_mark.mpr hc), afterArgument_comma hc]
      exact (hs t us rfl (by simp [hc])).bind fun _ _ _ => .ok _ _

-- Without an end the lists would run out at the line 0, which need not be mapped to itself.
theorem renames :
    (∀ power ts, Ended ts → Renames r g (Expr.rename r g) (expression power ts).outcome
      (expression power (ts.map (Lexeme.rename r g))).outcome) ∧
    (∀ power left ts, Ended ts → Renames r g (Expr.rename r g) (extend power left ts).outcome
      (extend power (left.rename r g) (ts.map (Lexeme.rename r g))).outcome) ∧
    (∀ t ts, Ended ts → Renames r g (Expr.rename r g) (operand t ts).outcome
      (operand (t.rename r g) (ts.map (Lexeme.rename r g))).outcome) ∧
    (∀ opened ts, Ended ts → Renames r g (List.map (Expr.rename r g)) (arguments opened ts).outcome
      (arguments (g opened) (ts.map (Lexeme.rename r g))).outcome) ∧
    (∀ opened ts, Ended ts → Renames r g (List.map (Expr.rename r g)) (someArguments opened ts).outcome
      (someArguments (g opened) (ts.map (Lexeme.rename r g))).outcome) := by
  apply expression.mutual_induct
  -- expression
  case case1 => exact fun power ht => absurd ht not_ended_nil
  case case2 =>
    intro power t ts ho he ht
    by_cases hf : t.value = .mark .finish
    case pos =>
      rw [List.map_cons, expression_cons, expression_cons, operand_unexpected hf (by decide) (by decide),
        operand_unexpected (rename_eq_mark.mpr hf) (by decide) (by decide)]
      exact .error _
    case neg =>
      have ht := ht.tail hf
      rw [List.map_cons, expression_cons, expression_cons]
      exact (ho ht).bind fun left ts₁ h =>
        he left _ (Parsed.length_lt h) ((operand_leaves h).ended ht)
  -- extend
  case case3 => exact fun power left ht => absurd ht not_ended_nil
  case case4 =>
    intro power left t ts hp op ht hr he hf
    rw [ht] at hp
    have hf := hf.tail (by simp [ht])
    rw [List.map_cons, extend_operator ht hp, extend_operator (rename_eq_mark.mpr ht) hp]
    exact (hr hf).bind fun right ts₁ h =>
      he right _ (Parsed.length_lt h) ((expression_leaves h).ended hf)
  case case5 =>
    intro power left t ts hp ht hr he hf
    rw [ht] at hp
    cases Nat.lt_one_iff.mp hp
    have hf := hf.tail (by simp [ht])
    rw [List.map_cons, extend_equals ht, extend_equals (rename_eq_mark.mpr ht)]
    cases hd : definition left t.line
    case error err =>
      have hd' := definition_rename_error (r := r) (g := g) hd
      rw [Lexeme.rename, hd']
      exact .error err
    case ok define =>
      obtain ⟨define', hd', hc⟩ := definition_rename_ok (r := r) (g := g) hd
      rw [Lexeme.rename, hd']
      refine (hr hf).bind fun right ts₁ h => ?_
      dsimp only
      rw [hc]
      exact he define right _ (Parsed.length_lt h) ((expression_leaves h).ended hf)
  case case6 =>
    intro power left t ts hp ho he
    cases extends_cases hp
    case inl h => exact h.elim fun op h => (ho op h).elim
    case inr h => exact (he h).elim
  case case7 => exact fun power left t ts hp _ => extend_stop_rename (Nat.le_of_not_lt hp)
  -- operand
  case case8 =>
    intro t ts x ht _
    have ht' : (t.rename r g).value = .number x := by simp [Lexeme.rename, ht, Token.rename]
    rw [operand_number ht, operand_number ht']
    exact .ok _ _
  case case9 =>
    intro t s ht line ts ha hf
    have ht' : (t.rename r g).value = .name (r s) := by simp [Lexeme.rename, ht, Token.rename]
    rw [List.map_cons, operand_call ht rfl, operand_call ht' rfl]
    refine (ha (hf.tail (by simp))).bind fun args rest _ => ?_
    rw [← Expr.renameAll_eq]
    exact .ok (Expr.call s args t.line) rest
  case case10 =>
    intro t s ht ts h _
    have hc : (current ts).value ≠ .mark .openParen := current_ne (by decide) h
    have ht' : (t.rename r g).value = .name (r s) := by simp [Lexeme.rename, ht, Token.rename]
    rw [operand_name ht hc, operand_name ht' (mt current_rename_eq_mark.mp hc)]
    exact .ok _ _
  case case11 =>
    intro t ts ht he hf
    rw [operand_group ht, operand_group (rename_eq_mark.mpr ht)]
    exact (he hf).bind fun inner ts₁ _ => closing_rename (Expr.rename r g)
  case case12 =>
    intro t ts ht he hf
    rw [operand_negation ht, operand_negation (rename_eq_mark.mpr ht)]
    exact (he hf).bind fun inner rest _ => .ok (Expr.negate inner t.line) rest
  case case13 =>
    intro t ts mark ho hs ht _
    rw [operand_unexpected ht ho hs, operand_unexpected (rename_eq_mark.mpr ht) ho hs]
    exact .error _
  -- arguments
  case case14 =>
    intro opened line ts _
    rw [List.map_cons, arguments_none rfl, arguments_none rfl]
    exact .ok [] ts
  case case15 =>
    intro opened ts h hs hf
    have hc : (current ts).value ≠ .mark .closeParen := current_ne (by decide) h
    rw [arguments_some hc, arguments_some (mt current_rename_eq_mark.mp hc)]
    exact hs hf
  case case16 =>
    intro opened ts he hs hf
    rw [someArguments_outcome, someArguments_outcome]
    refine (he hf).bind fun arg ts₁ h => afterArgument_rename fun t ts₂ ht hn => ?_
    subst ht
    have hl : (t :: ts₂).length < ts.length := Parsed.length_lt h
    exact hs t.line ts₂ hl (((expression_leaves h).ended hf).tail hn)

end Parse

open Parse

theorem parse_rename {ts : List Lexeme} (h : Ended ts) :
    parse (ts.map (Lexeme.rename r g)) =
      ((parse ts).map (List.map (Expr.rename r g))).mapError (Located.mapLine g) := by
  induction ts using parse.induct
  case case1 => exact absurd h not_ended_nil
  case case2 => rw [List.map_cons, parse_finish rfl, parse_finish rfl]; rfl
  case case3 t ts ht hi =>
    replace ht : t.value ≠ .mark .finish := fun hc => ht t.line (by rw [← hc])
    have hr := (renames (r := r) (g := g)).left 0 (t :: ts) h
    rw [List.map_cons] at *
    rw [parse_cons ht, parse_cons (mt rename_eq_mark.mp ht)]
    generalize hp : (expression 0 (t :: ts)).outcome = p at hr ⊢
    generalize (expression 0 (Lexeme.rename r g t :: ts.map (Lexeme.rename r g))).outcome = p' at hr ⊢
    cases hr
    case error => rfl
    case ok first rest =>
      have he := hi rest (Parsed.length_lt hp) ((expression_leaves hp).ended h)
      simp only [bind, Except.bind]
      rw [he]
      cases parse rest <;> rfl

end Calculator
