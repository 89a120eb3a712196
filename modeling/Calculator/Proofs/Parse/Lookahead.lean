import Calculator.Proofs.Parse.Outcome

/-!
# Looking ahead

The parser never looks further than one token ahead. What it reads is settled by the tokens it takes
and the one that stands after them, and so is an error. Moreover the tokens taken before an error can
always be completed, so an error is raised at the first token that no program continues with.
-/

namespace Calculator.Parse

-- What reads one thing off the front of a list of tokens.
abbrev Reader (α : Type) := List Lexeme → Except SyntaxError (α × List Lexeme)

-- The first token neither extends an expression nor turns a name into a call.
def Stops (ts : List Lexeme) : Prop :=
  (current ts).value.leftPower = 0 ∧ (current ts).value ≠ .mark .openParen

-- Whatever was read up to `ts` is read up to `us` as well.
def Follows (us ts : List Lexeme) : Prop := current us = current ts ∨ Stops us

namespace Follows

variable {us vs ts : List Lexeme}

theorem refl : Follows ts ts := .inl rfl

theorem append (h : Follows us vs) : Follows (ts ++ us) (ts ++ vs) := by
  cases ts
  case nil  => exact h
  case cons => exact .inl rfl

end Follows

def NoFinish (ts : List Lexeme) : Prop := ∀ t ∈ ts, t.value ≠ .mark .finish

namespace NoFinish

variable {us ts : List Lexeme} {t : Lexeme}

theorem nil : NoFinish [] := nofun

theorem cons (h : NoFinish ts) (ht : t.value ≠ .mark .finish) : NoFinish (t :: ts) :=
  List.forall_mem_cons.mpr ⟨ht, h⟩

theorem append (h₁ : NoFinish ts) (h₂ : NoFinish us) : NoFinish (ts ++ us) :=
  fun t ht => (List.mem_append.mp ht).elim (h₁ t) (h₂ t)

end NoFinish

section

variable {α β : Type}

def Reader.bind (read : Reader α) (next : α → Reader β) : Reader β :=
  fun ts => read ts >>= fun (a, rest) => next a rest

-- After `used` there are tokens with which the reader comes to an end, whatever stops it then.
def Completable (read : Reader α) (used : List Lexeme) : Prop :=
  ∃ c a, ∀ us, Stops us → Stops (c ++ us) ∧ read (used ++ (c ++ us)) = .ok (a, us)

-- Of `used ++ rest` the reader takes `used`, and gives `a`.
structure Reads (read : Reader α) (used rest : List Lexeme) (a : α) : Prop where
  unended : NoFinish used
  ahead   : ∀ us, Follows us rest → read (used ++ us) = .ok (a, us)

-- The reader takes `used` and fails at the first token of `rest`.
structure Fails (read : Reader α) (used rest : List Lexeme) (e : SyntaxError) : Prop where
  unended     : NoFinish used
  ahead       : ∀ us, current us = current rest → read (used ++ us) = .error e
  completable : Completable read used

inductive OneAhead (read : Reader α) (ts : List Lexeme) : Prop
  | reads (used rest a) : ts = used ++ rest → Reads read used rest a → OneAhead read ts
  | fails (used rest e) : ts = used ++ rest → Fails read used rest e → OneAhead read ts

variable {read read' : Reader α} {next : α → Reader β} {used used₂ rest ts : List Lexeme} {t : Lexeme}
  {a : α} {b : β} {e : SyntaxError}

theorem Completable.bind (h : Completable read used) (hn : ∀ a, Completable (next a) []) :
    Completable (read.bind next) used := by
  have ⟨c₁, a, h₁⟩ := h
  have ⟨c₂, b, h₂⟩ := hn a
  refine ⟨c₁ ++ c₂, b, fun us hu => ?_⟩
  have ⟨hs₂, he₂⟩ := h₂ us hu
  have ⟨hs₁, he₁⟩ := h₁ _ hs₂
  rw [List.append_assoc]
  refine ⟨hs₁, ?_⟩
  rw [Reader.bind, he₁]
  exact he₂

theorem Completable.done (h : ∀ us, Stops us → read us = .ok (a, us)) : Completable read [] :=
  ⟨[], a, fun us hu => ⟨hu, h us hu⟩⟩

namespace Reads

theorem eq (h : Reads read used rest a) : read (used ++ rest) = .ok (a, rest) :=
  h.ahead _ .refl

theorem bind (h₁ : Reads read used (used₂ ++ rest) a) (h₂ : Reads (next a) used₂ rest b) :
    Reads (read.bind next) (used ++ used₂) rest b where
  unended     := h₁.unended.append h₂.unended
  ahead us hu := by
    rw [List.append_assoc, Reader.bind, h₁.ahead _ hu.append]
    exact h₂.ahead us hu

theorem bind_fails (h₁ : Reads read used (used₂ ++ rest) a) (h₂ : Fails (next a) used₂ rest e) :
    Fails (read.bind next) (used ++ used₂) rest e where
  unended     := h₁.unended.append h₂.unended
  ahead us hu := by
    rw [List.append_assoc, Reader.bind, h₁.ahead _ (Follows.append <| .inl hu)]
    exact h₂.ahead us hu
  completable := by
    have ⟨c, b, hc⟩ := h₂.completable
    refine ⟨c, b, fun us hu => ?_⟩
    have ⟨hs, he⟩ := hc us hu
    rw [List.append_assoc, Reader.bind, h₁.ahead _ (Follows.append <| .inr hs)]
    exact ⟨hs, he⟩

theorem cons (h : Reads read used rest a) (ht : t.value ≠ .mark .finish)
    (hr : ∀ us, read' (t :: us) = read us) : Reads read' (t :: used) rest a where
  unended     := h.unended.cons ht
  ahead us hu := by
    rw [List.cons_append, hr]
    exact h.ahead us hu

end Reads

namespace Fails

theorem bind (h : Fails read used rest e) (hn : ∀ a, Completable (next a) []) :
    Fails (read.bind next) used rest e where
  unended     := h.unended
  ahead us hu := by rw [Reader.bind, h.ahead us hu]; rfl
  completable := h.completable.bind hn

theorem cons (h : Fails read used rest e) (ht : t.value ≠ .mark .finish)
    (hr : ∀ us, read' (t :: us) = read us) : Fails read' (t :: used) rest e where
  unended     := h.unended.cons ht
  ahead us hu := by
    rw [List.cons_append, hr]
    exact h.ahead us hu
  completable := by
    have ⟨c, a, hc⟩ := h.completable
    refine ⟨c, a, fun us hu => ?_⟩
    rw [List.cons_append, hr]
    exact hc us hu

end Fails

namespace OneAhead

theorem bind (h : OneAhead read ts)
    (hn : ∀ a rest, read ts = .ok (a, rest) → OneAhead (next a) rest)
    (hc : ∀ a, Completable (next a) []) : OneAhead (read.bind next) ts := by
  cases h
  case fails used rest e hs hf      => exact .fails _ _ e hs (hf.bind hc)
  case reads used rest a hs hr =>
    subst hs
    cases hn a rest hr.eq
    case reads used₂ rest₂ b hs hr₂ =>
      subst hs
      exact .reads _ _ b (List.append_assoc ..).symm (hr.bind hr₂)
    case fails used₂ rest₂ e hs hf =>
      subst hs
      exact .fails _ _ e (List.append_assoc ..).symm (hr.bind_fails hf)

theorem done (h : ∀ us, Follows us ts → read us = .ok (a, us)) : OneAhead read ts :=
  .reads [] ts a rfl ⟨.nil, h⟩

theorem cons (h : OneAhead read ts) (ht : t.value ≠ .mark .finish)
    (hr : ∀ us, read' (t :: us) = read us) : OneAhead read' (t :: ts) := by
  cases h
  case reads a hs h => exact .reads _ _ a (congrArg _ hs) (h.cons ht hr)
  case fails e hs h => exact .fails _ _ e (congrArg _ hs) (h.cons ht hr)

theorem map (h : OneAhead read ts) (f : α → β) :
    OneAhead (read.bind fun a rest => .ok (f a, rest)) ts :=
  h.bind (fun a _ _ => .done (a := f a) fun _ _ => rfl) fun a => .done (a := f a) fun _ _ => rfl

theorem congr (h : OneAhead read ts) (hr : ∀ us, read' us = read us) : OneAhead read' ts :=
  funext hr ▸ h

-- It is enough for two readers to agree on lists that begin like `ts`, if they take tokens off them.
theorem congr_current (h : OneAhead read ts)
    (hr : ∀ us, current us = current ts → read' us = read us)
    (hl : ∀ us a, read us ≠ .ok (a, us)) (hc : Completable read' []) : OneAhead read' ts := by
  cases h
  case reads used rest a hs h =>
    subst hs
    match used with
    | []        => exact absurd h.eq (hl rest a)
    | t :: used =>
      refine .reads _ _ a rfl ⟨h.unended, fun us hu => ?_⟩
      rw [hr (t :: used ++ us) rfl]
      exact h.ahead us hu
  case fails used rest e hs h =>
    subst hs
    match used with
    | []        => exact .fails _ _ e rfl ⟨.nil, fun us hu => hr us hu ▸ h.ahead us hu, hc⟩
    | t :: used =>
      have ⟨c, a, hc⟩ := h.completable
      refine .fails _ _ e rfl ⟨h.unended, fun us hu => ?_, c, a, fun us hu => ?_⟩
      case _ =>
        rw [hr (t :: used ++ us) rfl]
        exact h.ahead us hu
      case _ =>
        rw [hr (t :: used ++ (c ++ us)) rfl]
        exact hc us hu

end OneAhead

end

section

variable {α : Type} {inner : α} {opened power : Nat} {left arg : Expr} {read : Reader α}
  {ts : List Lexeme} {t : Lexeme}

def paren : Lexeme := ⟨.mark .closeParen, 0⟩

theorem stops_paren {us : List Lexeme} : Stops (paren :: us) := ⟨rfl, nofun⟩

theorem completable_closing : Completable (fun us => (closing opened inner us).outcome) [] :=
  ⟨[paren], inner, fun _ _ => ⟨stops_paren, closing_paren rfl⟩⟩

theorem completable_afterArgument : Completable (afterArgument opened arg) [] :=
  ⟨[paren], [arg], fun _ _ => ⟨stops_paren, rfl⟩⟩

theorem completable_extend : Completable (fun us => (extend power left us).outcome) [] :=
  .done fun _ hu => extend_stop (hu.left ▸ Nat.zero_le _)

theorem oneAhead_closing (opened : Nat) (inner : α)
    (h : ∀ us, current us = current ts ∨ (current us).value = .mark .closeParen →
      read us = (closing opened inner us).outcome) : OneAhead read ts := by
  by_cases hc : (current ts).value = .mark .closeParen
  case pos =>
    match ts with
    | []      => cases hc
    | t :: ts =>
      rw [current_cons] at hc
      refine .reads [t] ts inner rfl ⟨.cons .nil (by simp [hc]), fun us _ => ?_⟩
      rw [List.singleton_append, h (t :: us) (.inr hc), closing_paren hc]
  case neg =>
    refine .fails [] ts ⟨.unclosed, opened⟩ rfl ⟨.nil, fun us hu => ?_, [paren], inner, fun us _ => ?_⟩
    case _ => rw [List.nil_append, h _ (.inl hu), closing_missing (hu ▸ hc)]
    case _ => exact ⟨stops_paren, h _ (.inr rfl)⟩

end

-- The tokens that an operand begins with.
def Begins (t : Lexeme) : Prop :=
  ∀ mark, t.value = .mark mark → mark = .openParen ∨ mark = .operator .sub

section

variable {opened power : Nat} {left arg : Expr} {ts : List Lexeme} {t : Lexeme}

theorem Begins.ne_finish (h : Begins t) : t.value ≠ .mark .finish :=
  fun ht => by cases h _ ht <;> contradiction

theorem expression_unexpected {mark : Mark} (ht : (current ts).value = .mark mark)
    (ho : mark ≠ .openParen) (hs : mark ≠ .operator .sub) :
    (expression power ts).outcome = .error ⟨.unexpected mark, (current ts).line⟩ := by
  cases ts
  case nil  => cases ht; exact expression_nil
  case cons =>
    rw [current_cons] at ht
    rw [expression_cons, operand_unexpected ht ho hs]
    rfl

theorem oneAhead_unexpected (h : ¬Begins (current ts)) :
    OneAhead (fun us => (expression power us).outcome) ts := by
  simp only [Begins, Classical.not_forall, not_or] at h
  have ⟨mark, ht, ho, hs⟩ := h
  refine .fails [] ts ⟨.unexpected mark, (current ts).line⟩ rfl
    ⟨.nil, fun us hu => ?_, [⟨.number 0, 0⟩], .number 0 0, fun us hu => ?_⟩
  case _ => exact hu ▸ expression_unexpected (hu ▸ ht) ho hs
  case _ =>
    refine ⟨⟨rfl, nofun⟩, ?_⟩
    dsimp only [List.nil_append, List.singleton_append]
    rw [expression_cons, operand_number rfl]
    exact extend_stop (hu.left ▸ Nat.zero_le _)

theorem oneAhead_extend_stop (h : (current ts).value.leftPower ≤ power) :
    OneAhead (fun us => (extend power left us).outcome) ts := by
  refine .done (a := left) fun us hu => extend_stop ?_
  cases hu
  case inl hu => exact hu ▸ h
  case inr hu => exact hu.left ▸ Nat.zero_le _

theorem oneAhead_badDefinition {e : SyntaxError} (ht : t.value = .mark .equals)
    (h : definition left t.line = .error e) :
    OneAhead (fun us => (extend 0 left us).outcome) (t :: ts) := by
  refine .fails [] _ e rfl ⟨.nil, fun us hu => ?_, completable_extend⟩
  match us with
  | []      => cases hu; cases ht
  | _ :: us =>
    cases hu
    rw [List.nil_append, extend_equals ht, h]
    rfl

theorem oneAhead_operand_name {s : String} (ht : t.value = .name s)
    (h : (current ts).value ≠ .mark .openParen) :
    OneAhead (fun us => (operand t us).outcome) ts := by
  refine .done fun us hu => operand_name ht ?_
  cases hu
  case inl hu => exact hu ▸ h
  case inr hu => exact hu.right

theorem oneAhead_arguments (h : (current ts).value ≠ .mark .closeParen)
    (hs : OneAhead (fun us => (someArguments opened us).outcome) ts) :
    OneAhead (fun us => (arguments opened us).outcome) ts := by
  refine hs.congr_current (fun us hu => arguments_some (hu ▸ h)) (fun us a hl => ?_) ?_
  case _ => exact Nat.lt_irrefl _ (Parsed.length_lt hl)
  case _ => exact ⟨[paren], [], fun us _ => ⟨stops_paren, arguments_none rfl⟩⟩

theorem oneAhead_afterArgument
    (hs : ∀ t us, ts = t :: us → OneAhead (fun us => (someArguments opened us).outcome) us) :
    OneAhead (afterArgument opened arg) ts := by
  by_cases hc : (current ts).value = .mark .comma
  case neg =>
    refine oneAhead_closing opened [arg] fun us hu => afterArgument_closing fun hp => ?_
    cases hu
    case inl hu => exact hc (hu ▸ hp)
    case inr hu => cases hu.symm.trans hp
  case pos =>
    match ts with
    | []      => cases hc
    | t :: us =>
      rw [current_cons] at hc
      exact ((hs t us rfl).map (arg :: ·)).cons (by simp [hc]) fun _ => afterArgument_comma hc

end

theorem oneAhead :
    (∀ power ts, OneAhead (fun us => (expression power us).outcome) ts) ∧
    (∀ power left ts, OneAhead (fun us => (extend power left us).outcome) ts) ∧
    (∀ t ts, Begins t → OneAhead (fun us => (operand t us).outcome) ts) ∧
    (∀ opened ts, OneAhead (fun us => (arguments opened us).outcome) ts) ∧
    (∀ opened ts, OneAhead (fun us => (someArguments opened us).outcome) ts) := by
  apply expression.mutual_induct
    (fun power ts => OneAhead (fun us => (expression power us).outcome) ts)
    (fun power left ts => OneAhead (fun us => (extend power left us).outcome) ts)
    (fun t ts => Begins t → OneAhead (fun us => (operand t us).outcome) ts)
    (fun opened ts => OneAhead (fun us => (arguments opened us).outcome) ts)
    (fun opened ts => OneAhead (fun us => (someArguments opened us).outcome) ts)
  -- expression
  case case1 =>
    intro power
    refine oneAhead_unexpected fun hb => ?_
    exact hb.ne_finish rfl
  case case2 =>
    intro power t ts ho he
    by_cases hb : Begins t
    case neg => exact oneAhead_unexpected hb
    case pos =>
      have h := (ho hb).bind (fun left _ h => he left _ (Parsed.length_lt h)) fun _ => completable_extend
      exact h.cons hb.ne_finish fun _ => expression_cons
  -- extend
  case case3 => exact fun power left => oneAhead_extend_stop (Nat.zero_le power)
  case case4 =>
    intro power left t ts hp op ht hr he
    rw [ht] at hp
    have h := hr.bind (fun right _ h => he right _ (Parsed.length_lt h)) fun _ => completable_extend
    exact h.cons (by simp [ht]) fun _ => extend_operator ht hp
  case case5 =>
    intro power left t ts hp ht hr he
    rw [ht] at hp
    cases Nat.lt_one_iff.mp hp
    cases hd : definition left t.line
    case error => exact oneAhead_badDefinition ht hd
    case ok define =>
      have h := hr.bind (fun right _ h => he define right _ (Parsed.length_lt h)) fun _ => completable_extend
      exact h.cons (by simp [ht]) fun _ => by rw [extend_equals ht, hd]; rfl
  case case6 =>
    intro power left t ts hp ho he
    cases extends_cases hp
    case inl h => exact h.elim fun op h => (ho op h).elim
    case inr h => exact (he h).elim
  case case7 => exact fun power left t ts hp => oneAhead_extend_stop (Nat.le_of_not_lt hp)
  -- operand
  case case8 => exact fun t ts x ht _ => .done fun _ _ => operand_number ht
  case case9 =>
    intro t s ht line ts ha _
    exact (ha.map (.call s · t.line)).cons nofun fun _ => operand_call ht rfl
  case case10 =>
    intro t s ht ts h _
    exact oneAhead_operand_name ht (current_ne nofun h)
  case case11 =>
    intro t ts ht he _
    have h := he.bind (fun inner _ _ => oneAhead_closing t.line inner fun _ _ => rfl)
      fun _ => completable_closing
    exact h.congr fun _ => operand_group ht
  case case12 =>
    intro t ts ht he _
    exact (he.map (.negate · t.line)).congr fun _ => operand_negation ht
  case case13 =>
    intro t ts mark ho hs ht hb
    cases hb mark ht <;> contradiction
  -- arguments
  case case14 =>
    intro opened line ts
    have h : OneAhead (fun us => .ok (([] : List Expr), us)) ts := .done fun _ _ => rfl
    exact h.cons nofun fun _ => arguments_none rfl
  case case15 =>
    intro opened ts h hs
    exact oneAhead_arguments (current_ne nofun h) hs
  case case16 =>
    intro opened ts he hs
    have ha : ∀ arg ts₁, (expression innerPower ts).outcome = .ok (arg, ts₁) →
        OneAhead (afterArgument opened arg) ts₁ := by
      intro arg ts₁ h
      refine oneAhead_afterArgument fun t ts₂ ht => ?_
      subst ht
      have hl : (t :: ts₂).length < ts.length := Parsed.length_lt h
      exact hs t.line ts₂ hl
    exact (he.bind ha fun _ => completable_afterArgument).congr fun _ => someArguments_outcome

theorem oneAhead_expression (power : Nat) (ts : List Lexeme) :
    OneAhead (fun us => (expression power us).outcome) ts :=
  oneAhead.left power ts

end Calculator.Parse

namespace Calculator

open Parse

section

variable {used rest ts us : List Lexeme} {a : Expr} {e : SyntaxError} {t : Lexeme}

theorem parse_of_finish (h : (current ts).value = .mark .finish) : parse ts = .ok [] := by
  cases ts
  case nil  => exact parse_nil
  case cons => exact parse_finish h

theorem parse_of_not_finish (h : (current ts).value ≠ .mark .finish) :
    parse ts =
      (expression 0 ts).outcome >>= fun (first, rest) =>
        parse rest >>= fun others => .ok (first :: others) := by
  cases ts
  case nil  => exact absurd rfl h
  case cons => exact parse_cons h

-- The statements of a program fail at the first token of `rest`, after `used`.
structure ParseFails (used rest : List Lexeme) (e : SyntaxError) : Prop where
  unended     : NoFinish used
  ahead       : ∀ us, current us = current rest → parse (used ++ us) = .error e
  completable : ∃ c, ∀ us, (current us).value = .mark .finish →
    Stops (c ++ us) ∧ ∃ program, parse (used ++ (c ++ us)) = .ok program

theorem stops_of_finish (h : (current ts).value = .mark .finish) : Stops ts := by
  simp [Stops, h, Token.leftPower]

theorem current_append (h : current us = current rest) :
    current (used ++ us) = current (used ++ rest) := by
  cases used
  case nil  => exact h
  case cons => rfl

theorem parse_reads (h : Reads (fun us => (expression 0 us).outcome) used rest a)
    (hu : Follows us rest) :
    parse (used ++ us) = parse us >>= fun others => .ok (a :: others) := by
  match used with
  | []        => exact absurd (Parsed.length_lt h.eq) (Nat.lt_irrefl _)
  | t :: used =>
    have ht := h.unended t List.mem_cons_self
    rw [List.cons_append, parse_cons ht, ← List.cons_append, h.ahead us hu]
    rfl

theorem ParseFails.cons (h : Reads (fun us => (expression 0 us).outcome) used (us ++ rest) a)
    (hf : ParseFails us rest e) : ParseFails (used ++ us) rest e where
  unended     := h.unended.append hf.unended
  ahead vs hv := by
    rw [List.append_assoc, parse_reads h (.append <| .inl hv), hf.ahead vs hv]
    rfl
  completable := by
    have ⟨c, hc⟩ := hf.completable
    refine ⟨c, fun vs hv => ?_⟩
    have ⟨hs, program, hp⟩ := hc vs hv
    refine ⟨hs, a :: program, ?_⟩
    rw [List.append_assoc, parse_reads h (.append <| .inr hs), hp]
    rfl

theorem ParseFails.of_fails (h : Fails (fun us => (expression 0 us).outcome) used rest e)
    (ht : (current (used ++ rest)).value ≠ .mark .finish) : ParseFails used rest e where
  unended     := h.unended
  ahead us hu := by
    rw [parse_of_not_finish (current_append hu ▸ ht), h.ahead us hu]
    rfl
  completable := by
    have ⟨c, a, hc⟩ := h.completable
    refine ⟨c, fun us hu => ?_⟩
    have ⟨hs, he⟩ := hc us (stops_of_finish hu)
    refine ⟨hs, ?_⟩
    by_cases hf : (current (used ++ (c ++ us))).value = .mark .finish
    case pos => exact ⟨[], parse_of_finish hf⟩
    case neg =>
      refine ⟨[a], ?_⟩
      dsimp only at he
      rw [parse_of_not_finish hf, he]
      exact congrArg (· >>= fun others => Except.ok (a :: others)) (parse_of_finish hu)

theorem exists_parseFails (h : parse ts = .error e) :
    ∃ used rest, ts = used ++ rest ∧ ParseFails used rest e := by
  induction ts using parse.induct
  case case1           => rw [parse_nil] at h; cases h
  case case2           => rw [parse_finish rfl] at h; cases h
  case case3 t ts ht hi =>
    replace ht : t.value ≠ .mark .finish := fun hc => ht t.line (by rw [← hc])
    cases oneAhead_expression 0 (t :: ts)
    case reads used rest a hs hr =>
      have hl : rest.length < (t :: ts).length := by
        rw [hs]
        exact Parsed.length_lt hr.eq
      rw [hs, parse_reads hr .refl] at h
      cases hp : parse rest
      case ok      => rw [hp] at h; cases h
      case error e' =>
        rw [hp] at h
        cases h
        have ⟨used₂, rest₂, hs₂, hf⟩ := hi rest hl hp
        subst hs₂
        exact ⟨used ++ used₂, rest₂, by rw [hs, List.append_assoc], .cons hr hf⟩
    case fails used rest e' hs hf =>
      have hf := ParseFails.of_fails hf (hs ▸ ht)
      rw [hs, hf.ahead rest rfl] at h
      cases h
      exact ⟨used, rest, hs, hf⟩

-- The error of a program is raised at a token `t` that decides it: whatever comes after `t` it is the
-- same error, and what comes before `t` can be completed to a program.
theorem parse_fails_earliest (hf : ∃ t ∈ ts, t.value = .mark .finish) (h : parse ts = .error e) :
    ∃ before t after, ts = before ++ [t] ++ after ∧
      (∀ other, parse (before ++ [t] ++ other) = .error e) ∧
      ∃ c, ∀ line, ∃ program, parse (before ++ c ++ [⟨.mark .finish, line⟩]) = .ok program := by
  have ⟨used, rest, hs, hp⟩ := exists_parseFails h
  match rest with
  | [] =>
    have ⟨t, ht, hv⟩ := hf
    rw [hs, List.append_nil] at ht
    exact absurd hv (hp.unended t ht)
  | t :: rest =>
    have ⟨c, hc⟩ := hp.completable
    refine ⟨used, t, rest, by simp [hs], fun other => ?_, c, fun line => ?_⟩
    case _ => simpa using hp.ahead (t :: other) rfl
    case _ => simpa using (hc [⟨.mark .finish, line⟩] rfl).right

end

-- `f(x, ) + y` on three lines.
theorem parse_fails_earliest_in_call :
    let ts : List Lexeme := [⟨.name "f", 1⟩, ⟨.mark .openParen, 1⟩, ⟨.name "x", 1⟩, ⟨.mark .comma, 2⟩,
      ⟨.mark .closeParen, 3⟩, ⟨.mark (.operator .add), 3⟩, ⟨.name "y", 3⟩, ⟨.mark .finish, 3⟩]
    (∃ t ∈ ts, t.value = .mark .finish) ∧ parse ts = .error ⟨.unexpected .closeParen, 3⟩ ∧
      ∃ before t after, ts = before ++ [t] ++ after ∧
        (∀ other, parse (before ++ [t] ++ other) = .error ⟨.unexpected .closeParen, 3⟩) ∧
        ∃ c, ∀ line, ∃ program, parse (before ++ c ++ [⟨.mark .finish, line⟩]) = .ok program := by
  intro ts
  have hf : ∃ t ∈ ts, t.value = .mark .finish := ⟨⟨.mark .finish, 3⟩, by simp [ts], rfl⟩
  have h : parse ts = .error ⟨.unexpected .closeParen, 3⟩ := by cbv
  exact ⟨hf, h, parse_fails_earliest hf h⟩

end Calculator
