import Calculator.Proofs.Parse.Courses

/-!
# Progress

What an expression takes off a list of tokens is at least one token, with its parentheses in pairs, and it
stops only before a token that cannot go on with what it has taken.
-/

namespace Calculator.Parse

theorem eq_cons_of_current {ts : List Lexeme} {v : Token} (h : (current ts).value = v)
    (hv : v ≠ .mark .finish) : ts = current ts :: ts.tail := by
  cases ts
  case nil  => exact absurd h.symm hv
  case cons => rfl

-- How many parentheses the tokens open, and how many they close.

def opens (ts : List Lexeme) : Nat := ts.countP (·.value = .mark .openParen)

def closes (ts : List Lexeme) : Nat := ts.countP (·.value = .mark .closeParen)

section

variable {ts us : List Lexeme} {t : Lexeme}

@[simp]
theorem opens_nil : opens [] = 0 := rfl

@[simp]
theorem closes_nil : closes [] = 0 := rfl

theorem opens_cons : opens (t :: ts) = opens ts + if t.value = .mark .openParen then 1 else 0 := by
  simp [opens, List.countP_cons]

theorem closes_cons : closes (t :: ts) = closes ts + if t.value = .mark .closeParen then 1 else 0 := by
  simp [closes, List.countP_cons]

@[simp]
theorem opens_append : opens (ts ++ us) = opens ts + opens us := List.countP_append

@[simp]
theorem closes_append : closes (ts ++ us) = closes ts + closes us := List.countP_append

end

-- The token is one of the source itself, and no parenthesis.
def Level (t : Lexeme) : Prop :=
  t.value ∉ [.mark .finish, .mark .blank, .mark .openParen, .mark .closeParen]

-- Tokens of the source itself, whose parentheses come in pairs.
structure Whole (used : List Lexeme) : Prop where
  real   : ∀ t ∈ used, t.value ≠ .mark .finish ∧ t.value ≠ .mark .blank
  paired : closes used = opens used
  nested : ∀ n, closes (used.take n) ≤ opens (used.take n)

namespace Whole

variable {used used₁ used₂ : List Lexeme} {t o c : Lexeme}

theorem nil : Whole [] := ⟨nofun, rfl, fun n => by rw [List.take_nil]; exact Nat.le_refl 0⟩

theorem append (h₁ : Whole used₁) (h₂ : Whole used₂) : Whole (used₁ ++ used₂) where
  real t ht := (List.mem_append.mp ht).elim (h₁.real t) (h₂.real t)
  paired    := by rw [closes_append, opens_append, h₁.paired, h₂.paired]
  nested n  := by
    rw [List.take_append, closes_append, opens_append]
    exact Nat.add_le_add (h₁.nested n) (h₂.nested _)

theorem single (ht : Level t) : Whole [t] := by
  simp only [Level, List.mem_cons, List.not_mem_nil, or_false, not_or] at ht
  have ⟨hf, hb, ho, hc⟩ := ht
  refine ⟨fun t ht => ?_, ?_, fun n => ?_⟩
  case refine_1 => cases List.mem_singleton.mp ht; exact ⟨hf, hb⟩
  case refine_2 => simp [closes_cons, opens_cons, ho, hc]
  case refine_3 => cases n <;> simp [closes_cons, hc]

theorem wrap (h : Whole used) (ho : o.value = .mark .openParen) (hc : c.value = .mark .closeParen) :
    Whole (o :: (used ++ [c])) where
  real t ht := by
    simp only [List.mem_cons, List.mem_append, List.not_mem_nil, or_false] at ht
    obtain rfl | ht | rfl := ht
    case _ => simp [ho]
    case _ => exact h.real t ht
    case _ => simp [hc]
  paired := by simp [closes_cons, opens_cons, ho, hc, h.paired]
  nested n := by
    cases n
    case zero   => exact Nat.le_refl 0
    case succ n =>
      have hl : closes ([c].take (n - used.length)) ≤ 1 := by
        cases n - used.length <;> simp [closes_cons, hc]
      have := h.nested n
      simp only [List.take_succ_cons, List.take_append, closes_cons, opens_cons, closes_append,
        opens_append, ho, reduceIte, Token.mark.injEq, reduceCtorEq]
      omega

end Whole

-- What an expression takes off the front of a list whose tail `rest` it leaves. A name at its end would
-- have become a call, if an open parenthesis came after it.
structure Taken (used rest : List Lexeme) : Prop extends Whole used where
  uncalled : ∀ t s, used.getLast? = some t → t.value = .name s →
    (current rest).value ≠ .mark .openParen

namespace Taken

variable {ts used used₁ used₂ rest : List Lexeme} {t c : Lexeme}

theorem nil : Taken [] rest := ⟨.nil, nofun⟩

theorem append (h₁ : Taken used₁ (used₂ ++ rest)) (h₂ : Taken used₂ rest) :
    Taken (used₁ ++ used₂) rest where
  toWhole := h₁.toWhole.append h₂.toWhole
  uncalled t s ht hs := by
    cases h : used₂.getLast?
    case none   =>
      cases List.getLast?_eq_none_iff.mp h
      rw [List.append_nil] at ht
      exact h₁.uncalled t s ht hs
    case some u =>
      rw [List.getLast?_append, h] at ht
      cases ht
      exact h₂.uncalled t s h hs

theorem single (ht : Level t)
    (hn : ∀ s, t.value = .name s → (current rest).value ≠ .mark .openParen) : Taken [t] rest where
  toWhole := .single ht
  uncalled _ s h hs := by
    cases h
    exact hn s hs

theorem cons (h : Taken used rest) (ht : Level t) (hn : ∀ s, t.value ≠ .name s) :
    Taken (t :: used) rest :=
  append (.single ht fun s hs => absurd hs (hn s)) h

-- An operator or a definition goes on with what comes before it.
theorem joined {mark : Mark} (ht : (current ts).value = .mark mark) (hl : Level (current ts))
    (hs : ts.tail = used₁ ++ (used₂ ++ rest)) (h₁ : Taken used₁ (used₂ ++ rest))
    (h₂ : Taken used₂ rest) : ∃ used, ts = used ++ rest ∧ Taken used rest := by
  have hc : ts = current ts :: ts.tail := eq_cons_of_current rfl fun hf => hl (by simp [hf])
  refine ⟨current ts :: (used₁ ++ used₂), ?_, (h₁.append h₂).cons hl (by simp [ht])⟩
  rw [hc, hs]
  simp

theorem closed (h : Whole used) (hl : used.getLast? = some c) (hc : c.value = .mark .closeParen) :
    Taken used rest where
  toWhole := h
  uncalled t s ht hs := by
    cases hl.symm.trans ht
    cases hc.symm.trans hs

end Taken

-- What is taken off a list to reach a goal.
def Goal.Takes {α : Type} (used rest : List Lexeme) : Goal α → Prop
  | expression _  => used ≠ [] ∧ Taken used rest
  | operand t     => Taken (t :: used) rest
  | extension _ _ => Taken used rest
  | arguments _ | someArguments _ =>
    ∃ inner c, used = inner ++ [c] ∧ c.value = .mark .closeParen ∧ Whole inner

theorem closing_eq_ok {α : Type} {inner a : α} {opened : Nat} {ts rest : List Lexeme}
    (h : (closing opened inner ts).outcome = .ok (a, rest)) :
    ∃ c, ts = c :: rest ∧ c.value = .mark .closeParen := by
  by_cases hc : (current ts).value = .mark .closeParen
  case neg => rw [closing_missing hc] at h; cases h
  case pos =>
    have hs := eq_cons_of_current hc nofun
    rw [hs, closing_paren hc] at h
    cases h
    exact ⟨_, hs, hc⟩

theorem map_eq_ok {α β : Type} {f : α → β} {r : Except SyntaxError α} {b : β} (h : .ok b = r.map f) :
    ∃ a, .ok a = r ∧ f a = b := by
  cases r
  case error => cases h
  case ok a  => cases h; exact ⟨a, rfl, rfl⟩

-- By induction on the rules of a course. What is taken for a part is put together with what the rule takes
-- itself, and only a part of the course that reads nothing takes nothing.
theorem Course.takes {α : Type} {g : Goal α} {ts rest : List Lexeme} {a : α}
    (h : Course g ts (.ok (a, rest))) : ∃ used, ts = used ++ rest ∧ g.Takes used rest := by
  generalize hr : (.ok (a, rest) : Except SyntaxError (α × List Lexeme)) = r at h
  induction h generalizing rest
  -- expressions
  case operandError  => cases hr
  case expression ts _ _ _ _ _ _ hi₁ hi₂ =>
    obtain ⟨used₁, hs, h₁⟩ := hi₁ rfl
    obtain ⟨used₂, rfl, h₂⟩ := hi₂ hr
    have ht := eq_cons_of_current rfl (h₁.real _ List.mem_cons_self).left
    exact ⟨current ts :: (used₁ ++ used₂), by rw [ht, hs]; simp, nofun, h₁.append h₂⟩
  -- operands
  case number ht     => cases hr; exact ⟨[], rfl, .single (by simp [Level, ht]) (by simp [ht])⟩
  case name ht hu    => cases hr; exact ⟨[], rfl, .single (by simp [Level, ht]) fun _ _ => hu⟩
  case call ts _ _ _ ht hu _ hi =>
    obtain ⟨⟨args, rest⟩, hr, ⟨⟩⟩ := map_eq_ok hr
    obtain ⟨_, hs, inner, c, rfl, hc, hw⟩ := hi hr
    have ho := eq_cons_of_current hu nofun
    refine ⟨current ts :: (inner ++ [c]), by rw [ho, hs]; simp, .closed ?_ ?_ hc⟩
    case _ => exact .append (.single (by simp [Level, ht])) (hw.wrap hu hc)
    case _ => simp [List.getLast?_cons]
  case innerError    => cases hr
  case group ht _ hi =>
    obtain ⟨c, rfl, hc⟩ := closing_eq_ok hr.symm
    obtain ⟨used, rfl, _, hu⟩ := hi rfl
    exact ⟨used ++ [c], by simp, .closed (hu.toWhole.wrap ht hc) (by simp [List.getLast?_cons]) hc⟩
  case negation ht _ hi =>
    obtain ⟨⟨inner, rest⟩, hr, ⟨⟩⟩ := map_eq_ok hr
    obtain ⟨used, rfl, _, hu⟩ := hi hr
    exact ⟨used, rfl, hu.cons (by simp [Level, ht]) (by simp [ht])⟩
  case unexpected    => cases hr
  -- operators and definitions
  case stop          => cases hr; exact ⟨[], rfl, .nil⟩
  case rightError    => cases hr
  case operator ht _ _ _ hi₁ hi₂ =>
    obtain ⟨used₁, hs, _, h₁⟩ := hi₁ rfl
    obtain ⟨used₂, rfl, h₂⟩ := hi₂ hr
    exact Taken.joined ht (by simp [Level, ht]) hs h₁ h₂
  case badDefinition => cases hr
  case definedError  => cases hr
  case definition ht _ _ _ hi₁ hi₂ =>
    obtain ⟨used₁, hs, _, h₁⟩ := hi₁ rfl
    obtain ⟨used₂, rfl, h₂⟩ := hi₂ hr
    exact Taken.joined ht (by simp [Level, ht]) hs h₁ h₂
  -- arguments
  case noArguments ts _ hc =>
    cases hr
    exact ⟨[current ts], eq_cons_of_current hc nofun, [], current ts, rfl, hc, .nil⟩
  case arguments hi  => exact hi hr
  case argumentError => cases hr
  case argument ts₁ _ _ _ hc _ hi₁ hi₂ =>
    obtain ⟨⟨args, rest⟩, hr, ⟨⟩⟩ := map_eq_ok hr
    obtain ⟨used₁, rfl, _, h₁⟩ := hi₁ rfl
    obtain ⟨_, hs, inner, c, rfl, hp, hw⟩ := hi₂ hr
    have ht := eq_cons_of_current hc nofun
    refine ⟨used₁ ++ (current ts₁ :: (inner ++ [c])), by rw [ht, hs]; simp,
      used₁ ++ (current ts₁ :: inner), c, by simp, hp, h₁.toWhole.append ?_⟩
    exact .append (.single (by simp [Level, hc])) hw
  case lastArgument _ hi =>
    obtain ⟨c, rfl, hc⟩ := closing_eq_ok hr.symm
    obtain ⟨used, rfl, _, hu⟩ := hi rfl
    exact ⟨used ++ [c], by simp, used, c, rfl, hc, hu.toWhole⟩

-- Whatever the tokens are, the parser comes to an end on them in exactly one way, from any of its
-- functions. An expression takes at least one token, none of them the end or a blank, with its
-- parentheses in pairs, and stops before a token that does not go on with it.
theorem parser_progress (ts : List Lexeme) :
    (∀ {α : Type} (g : Goal α), Course g ts (g.read ts) ∧ ∀ r, Course g ts r → r = g.read ts) ∧
    (ProgramCourse ts (parse ts) ∧ ∀ r, ProgramCourse ts r → r = parse ts) ∧
    ∀ power e rest, (expression power ts).outcome = .ok (e, rest) →
      ∃ used, ts = used ++ rest ∧ used ≠ [] ∧ Taken used rest ∧
        (current rest).value.leftPower ≤ power := by
  refine ⟨fun g => ?functions, ?program, fun power e rest h => ?expression⟩
  case functions  => exact ⟨course_iff.mpr rfl, fun r h => h.read_eq.symm⟩
  case program    => exact ⟨programCourse ts, fun r h => h.parse_eq.symm⟩
  case expression =>
    have hc : Course (.expression power) ts (.ok (e, rest)) := course_iff.mpr h
    have ⟨used, hs, hn, hu⟩ := hc.takes
    exact ⟨used, hs, hn, hu, expression_stops h⟩

-- `f((x), -y) * z - u`, up to the second minus, and without an end.
theorem parser_progress_in_call :
    let ts : List Lexeme := [⟨.name "f", 1⟩, ⟨.mark .openParen, 1⟩, ⟨.mark .openParen, 1⟩,
      ⟨.name "x", 1⟩, ⟨.mark .closeParen, 1⟩, ⟨.mark .comma, 1⟩, ⟨.mark (.operator .sub), 1⟩,
      ⟨.name "y", 1⟩, ⟨.mark .closeParen, 1⟩, ⟨.mark (.operator .mul), 1⟩, ⟨.name "z", 1⟩,
      ⟨.mark (.operator .sub), 1⟩, ⟨.name "u", 1⟩]
    let rest := ts.drop 11
    (∃ e, (expression 3 ts).outcome = .ok (e, rest)) ∧
      ∃ used, ts = used ++ rest ∧ used ≠ [] ∧ Taken used rest ∧
        (current rest).value.leftPower ≤ 3 := by
  intro ts rest
  have ⟨e, h⟩ : ∃ e, (expression 3 ts).outcome = .ok (e, rest) := ⟨_, by cbv⟩
  exact ⟨⟨e, h⟩, (parser_progress ts).2.2 3 e rest h⟩

end Calculator.Parse
