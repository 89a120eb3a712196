import Calculator.Proofs.Parse.Leftover

/-!
# Seams

Statements are not separated from each other, so when one list of tokens follows another, the first of
its tokens may continue the last statement before it. It does not if it is neither an operator nor an `=`
nor a parenthesis right after a name. Then both lists are parsed as if each stood alone.
-/

namespace Calculator.Parse

-- The tokens `us` do not continue what `used` ends with.
structure Apart (used us : List Lexeme) : Prop where
  unbound  : (current us).value.leftPower = 0
  uncalled : (current us).value = .mark .openParen → ∀ t ∈ used.getLast?, ∀ s, t.value ≠ .name s

variable {α β : Type} {read read' : Reader α} {next : α → Reader β} {a : α} {e : SyntaxError}
  {before used used₂ us ts rest : List Lexeme} {t : Lexeme} {left arg : Expr} {power opened : Nat}

theorem Apart.of_append (h : Apart (used ++ used₂) us) : Apart used₂ us where
  unbound         := h.unbound
  uncalled ho t ht := h.uncalled ho t (by simp [List.getLast?_append, Option.mem_def.mp ht])

theorem Apart.of_suffix (ha : Apart used us) (h : used₂ <:+ used) : Apart used₂ us := by
  obtain ⟨_, rfl⟩ := h
  exact ha.of_append

-- `us` may stand in the place of `rest`, where the tokens `used` have just been taken.
def Replaces (used us rest : List Lexeme) : Prop := current us = current rest ∨ Apart used us

theorem Replaces.of_append (h : Replaces (used ++ used₂) us rest) : Replaces used₂ us rest :=
  h.imp_right Apart.of_append

theorem Replaces.leftPower_le (h : Replaces used us rest)
    (hp : (current rest).value.leftPower ≤ power) : (current us).value.leftPower ≤ power := by
  cases h
  case inl h => exact h ▸ hp
  case inr h => exact h.unbound ▸ Nat.zero_le power

-- What is read after `before` does not depend on the tokens that are left over.
def Detaches (before : List Lexeme) (read : Reader α) (ts : List Lexeme) : Prop :=
  ∀ a rest, read ts = .ok (a, rest) → ∃ used, ts = used ++ rest ∧
    ∀ us, Replaces (before ++ used) us rest → read (used ++ us) = .ok (a, us)

namespace Detaches

theorem error (h : read ts = .error e) : Detaches before read ts := by
  intro a rest hr
  cases h.symm.trans hr

theorem done (h : ∀ us, Replaces before us ts → read us = .ok (a, us)) :
    Detaches before read ts := by
  intro b rest hr
  cases (h ts (.inl rfl)).symm.trans hr
  exact ⟨[], rfl, fun us hu => h us (List.append_nil before ▸ hu)⟩

-- Where the second reader takes no tokens, the first one is followed by what replaces the rest, otherwise
-- by the tokens that the second one takes.
theorem bind (h : Detaches before read ts)
    (hn : ∀ a rest, read ts = .ok (a, rest) → Detaches [] (next a) rest) :
    Detaches before (read.bind next) ts := by
  intro b rest hr
  have ⟨⟨a, rest₁⟩, ha, hb⟩ := bind_eq_ok hr
  obtain ⟨used, rfl, hu⟩ := h a rest₁ ha
  obtain ⟨used₂, rfl, hu₂⟩ := hn a rest₁ ha b rest hb
  refine ⟨used ++ used₂, (List.append_assoc ..).symm, fun us hs => ?_⟩
  have hs₂ : Replaces used₂ us rest := by
    rw [← List.append_assoc] at hs
    exact hs.of_append
  have hs₁ : Replaces (before ++ used) (used₂ ++ us) (used₂ ++ rest) := by
    cases used₂
    case nil  => simpa using hs
    case cons => exact .inl rfl
  rw [List.append_assoc, Reader.bind, hu _ hs₁]
  exact hu₂ us hs₂

theorem cons (h : Detaches [t] read ts) (hr : ∀ us, read' (t :: us) = read us) :
    Detaches before read' (t :: ts) := by
  intro a rest ha
  obtain ⟨used, rfl, hu⟩ := h a rest (hr ts ▸ ha)
  refine ⟨t :: used, rfl, fun us hs => ?_⟩
  rw [List.cons_append, hr]
  exact hu us hs.of_append

theorem weaken (h : Detaches [] read ts) : Detaches before read ts := by
  intro a rest ha
  have ⟨used, hs, hu⟩ := h a rest ha
  exact ⟨used, hs, fun us hr => hu us hr.of_append⟩

theorem congr (h : Detaches before read ts) (hr : ∀ us, read' us = read us) :
    Detaches before read' ts :=
  funext hr ▸ h

-- It is enough for two readers to agree on lists that begin like `ts`, if they take tokens off them.
theorem congr_current (h : Detaches before read ts)
    (hr : ∀ us, current us = current ts → read' us = read us)
    (hl : ∀ us a, read us ≠ .ok (a, us)) : Detaches before read' ts := by
  intro a rest ha
  rw [hr ts rfl] at ha
  obtain ⟨used, rfl, hu⟩ := h a rest ha
  match used with
  | []        => exact absurd ha (hl rest a)
  | t :: used =>
    refine ⟨t :: used, rfl, fun us hs => ?_⟩
    rw [hr (t :: used ++ us) rfl]
    exact hu us hs

theorem map (h : Detaches before read ts) (f : α → β) :
    Detaches before (read.bind fun a rest => .ok (f a, rest)) ts :=
  h.bind fun a _ _ => .done (a := f a) fun _ _ => rfl

end Detaches

theorem detaches_closing {inner : α} : Detaches [] (fun us => (closing opened inner us).outcome) ts := by
  by_cases hc : (current ts).value = .mark .closeParen
  case neg => exact .error (closing_missing hc)
  case pos =>
    match ts with
    | []      => cases hc
    | t :: ts =>
      have h : Detaches [t] (fun us => .ok (inner, us)) ts := .done fun _ _ => rfl
      exact h.cons fun _ => closing_paren hc

theorem detaches_extend_stop (h : (current ts).value.leftPower ≤ power) :
    Detaches [] (fun us => (extend power left us).outcome) ts :=
  .done (a := left) fun _ hu => extend_stop (hu.leftPower_le h)

theorem detaches_operand_name {s : String} (ht : t.value = .name s)
    (h : (current ts).value ≠ .mark .openParen) :
    Detaches [t] (fun us => (operand t us).outcome) ts := by
  refine .done fun us hu => operand_name ht ?_
  cases hu
  case inl hu => exact hu ▸ h
  case inr hu => exact fun ho => hu.uncalled ho t rfl s ht

theorem detaches_afterArgument
    (hs : ∀ t us, ts = t :: us → Detaches [] (fun us => (someArguments opened us).outcome) us) :
    Detaches [] (afterArgument opened arg) ts := by
  by_cases hc : (current ts).value = .mark .comma
  case neg =>
    have h : Detaches [] (fun us => (closing opened [arg] us).outcome) ts := detaches_closing
    refine h.congr_current (fun us hu => afterArgument_closing (hu ▸ hc)) fun us _ hl => ?_
    exact Nat.lt_irrefl _ (Parsed.length_lt hl)
  case pos =>
    match ts with
    | []      => cases hc
    | t :: us => exact ((hs t us rfl).map (arg :: ·)).weaken.cons fun _ => afterArgument_comma hc

theorem detaches :
    (∀ power ts, Detaches [] (fun us => (expression power us).outcome) ts) ∧
    (∀ power left ts, Detaches [] (fun us => (extend power left us).outcome) ts) ∧
    (∀ t ts, Detaches [t] (fun us => (operand t us).outcome) ts) ∧
    (∀ opened ts, Detaches [] (fun us => (arguments opened us).outcome) ts) ∧
    (∀ opened ts, Detaches [] (fun us => (someArguments opened us).outcome) ts) := by
  apply expression.mutual_induct
  -- expression
  case case1 => exact fun power => .error expression_nil
  case case2 =>
    intro power t ts ho he
    have h := ho.bind fun left _ h => he left _ (Parsed.length_lt h)
    exact h.cons fun _ => expression_cons
  -- extend
  case case3 => exact fun power left => detaches_extend_stop (Nat.zero_le power)
  case case4 =>
    intro power left t ts hp op ht hr he
    rw [ht] at hp
    have h := hr.bind fun right _ h => he right _ (Parsed.length_lt h)
    exact h.weaken.cons fun _ => extend_operator ht hp
  case case5 =>
    intro power left t ts hp ht hr he
    rw [ht] at hp
    cases Nat.lt_one_iff.mp hp
    cases hd : definition left t.line
    case error => exact .error (by rw [extend_equals ht, hd]; rfl)
    case ok define =>
      have h := hr.bind fun right _ h => he define right _ (Parsed.length_lt h)
      exact h.weaken.cons fun _ => by rw [extend_equals ht, hd]; rfl
  case case6 =>
    intro power left t ts hp ho he
    cases extends_cases hp
    case inl h => exact h.elim fun op h => (ho op h).elim
    case inr h => exact (he h).elim
  case case7 => exact fun power left t ts hp => detaches_extend_stop (Nat.le_of_not_lt hp)
  -- operand
  case case8 => exact fun t ts x ht => .done fun _ _ => operand_number ht
  case case9 =>
    intro t s ht line ts ha
    exact (ha.map (Expr.call s · t.line)).weaken.cons fun _ => operand_call ht rfl
  case case10 =>
    intro t s ht ts h
    exact detaches_operand_name ht (current_ne (by decide) h)
  case case11 =>
    intro t ts ht he
    let close (inner : Expr) : Reader Expr := fun us => (closing t.line inner us).outcome
    have h : Detaches [] (Reader.bind _ close) ts := he.bind fun _ _ _ => detaches_closing
    exact h.weaken.congr fun _ => operand_group ht
  case case12 =>
    intro t ts ht he
    exact (he.map (Expr.negate · t.line)).weaken.congr fun _ => operand_negation ht
  case case13 => exact fun t ts mark ho hs ht => .error (operand_unexpected ht ho hs)
  -- arguments
  case case14 =>
    intro opened line ts
    have h : Detaches [] (fun us => .ok (([] : List Expr), us)) ts := .done fun _ _ => rfl
    exact h.weaken.cons fun _ => arguments_none rfl
  case case15 =>
    intro opened ts h hs
    have hc : (current ts).value ≠ .mark .closeParen := current_ne (by decide) h
    refine hs.congr_current (fun us hu => arguments_some (hu ▸ hc)) fun us _ hl => ?_
    exact Nat.lt_irrefl _ (Parsed.length_lt hl)
  case case16 =>
    intro opened ts he hs
    have ha : ∀ arg ts₁, (expression innerPower ts).outcome = .ok (arg, ts₁) →
        Detaches [] (afterArgument opened arg) ts₁ := by
      intro arg ts₁ h
      refine detaches_afterArgument fun t ts₂ ht => ?_
      subst ht
      have hl : (t :: ts₂).length < ts.length := Parsed.length_lt h
      exact hs t.line ts₂ hl
    exact (he.bind ha).congr fun _ => someArguments_outcome

end Calculator.Parse

namespace Calculator

open Parse

variable {ts us : List Lexeme} {line : Nat} {p : List Expr}

theorem append_eq_concat {used rest : List Lexeme} (hu : NoFinish used)
    (h : used ++ rest = ts ++ [⟨.mark .finish, line⟩]) :
    ∃ ts₁, rest = ts₁ ++ [⟨.mark .finish, line⟩] ∧ ts = used ++ ts₁ := by
  cases List.append_eq_append_iff.mp h
  case inl h =>
    obtain ⟨ts₁, rfl, hr⟩ := h
    exact ⟨ts₁, hr, rfl⟩
  case inr h =>
    obtain ⟨more, rfl, hr⟩ := h
    cases List.singleton_eq_append_iff.mp hr
    case inl h => exact ⟨[], by simp [h]⟩
    case inr h => exact absurd rfl (hu ⟨.mark .finish, line⟩ (by simp [h.left]))

-- What the first statement of `ts` leaves over of `ts` is followed by `us`.
theorem expression_append {first : Expr} {rest : List Lexeme} (ha : Apart ts us)
    (h : (expression 0 (ts ++ [⟨.mark .finish, line⟩])).outcome = .ok (first, rest)) :
    ∃ ts₁, rest = ts₁ ++ [⟨.mark .finish, line⟩] ∧ ts₁ <:+ ts ∧
      (expression 0 (ts ++ us)).outcome = .ok (first, ts₁ ++ us) := by
  have ⟨used, hs, hu⟩ := expression_leaves h
  have ⟨used₂, hs₂, hr⟩ := detaches.left 0 _ first rest h
  cases List.append_cancel_right (hs₂.symm.trans hs)
  obtain ⟨ts₁, rfl, rfl⟩ := append_eq_concat hu hs.symm
  refine ⟨ts₁, rfl, List.suffix_append _ _, ?_⟩
  rw [List.append_assoc]
  refine hr (ts₁ ++ us) ?_
  cases ts₁
  case nil  => exact .inr (List.append_nil used ▸ ha)
  case cons => exact .inl rfl

-- The programs that two lists of tokens hold make up one program, if the second list does not continue
-- the first one.
theorem parse_append (hn : NoFinish ts) (hp : parse (ts ++ [⟨.mark .finish, line⟩]) = .ok p)
    (ha : ts = [] ∨ Apart ts us) : parse (ts ++ us) = (p ++ ·) <$> parse us := by
  induction hl : ts.length using Nat.strongRecOn generalizing ts p
  case ind n hi =>
    subst hl
    match ts with
    | [] =>
      rw [List.nil_append, parse_finish rfl] at hp
      cases hp
      exact (id_map _).symm
    | t :: ts =>
      have ht := hn t List.mem_cons_self
      have ha := ha.resolve_left (List.cons_ne_nil t ts)
      rw [List.cons_append, parse_cons ht] at hp
      have ⟨⟨first, rest⟩, hf, hp⟩ := bind_eq_ok hp
      have ⟨others, ho, hp⟩ := bind_eq_ok hp
      cases hp
      obtain ⟨ts₁, rfl, hs, he⟩ := expression_append ha hf
      have hl : ts₁.length < (t :: ts).length := by
        have := Parsed.length_lt hf
        simp at *
        omega
      have ho := hi _ hl (fun t ht => hn t (hs.subset ht)) ho (.inr (ha.of_suffix hs)) rfl
      rw [List.cons_append, parse_cons ht, ← List.cons_append, he]
      simp only [bind, Except.bind]
      rw [ho]
      cases parse us <;> rfl

end Calculator
