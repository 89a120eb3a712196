import Calculator.Proofs.Parse.Lookahead
import Calculator.Proofs.Parse.Statement

/-!
# Written programs

The parser returns lists of statements, and every list of statements is returned for some tokens: those
that write every value, right side, operand and argument in its own parentheses. Without them a
parenthesis after a name would make a call of it, and a sign before a value a subtraction. What
introduces an expression stands on its line. All other tokens may stand on any.
-/

namespace Calculator

def inParens (opened : Nat) (ts : List Lexeme) (closed : Nat) : List Lexeme :=
  ⟨.mark .openParen, opened⟩ :: ts ++ [⟨.mark .closeParen, closed⟩]

-- The tokens of some items one after the other, with commas between them.
inductive Listed : List (List Lexeme) → List Lexeme → Prop
  | nil : Listed [] []
  | single {ts} : Listed [ts] ts
  | cons {ts us tss rest j} :
    Listed (us :: tss) rest → Listed (ts :: us :: tss) (ts ++ ⟨.mark .comma, j⟩ :: rest)

def Lexeme.ofName (s : Located String) : Lexeme := ⟨.name s.value, s.line⟩

namespace Expr

-- The tokens of a plain expression in its own parentheses.
inductive Written : Expr → List Lexeme → Prop
  | number {x line j k} : Written (.number x line) (inParens j [⟨.number x, line⟩] k)
  | name {s line j k} : Written (.name s line) (inParens j [⟨.name s, line⟩] k)
  | negate {e ts line j k} :
    Written e ts →
    Written (.negate e line) (inParens j (⟨.mark (.operator .sub), line⟩ :: ts) k)
  | binary {op left right ts us line j k} :
    Written left ts → Written right us →
    Written (.binary op left right line) (inParens j (ts ++ ⟨.mark (.operator op), line⟩ :: us) k)
  | call {s ts line j k m n} {args : List (Expr × List Lexeme)} :
    (∀ arg ∈ args, Written arg.1 arg.2) → Listed (args.map Prod.snd) ts →
    Written (.call s (args.map Prod.fst) line) (inParens j (⟨.name s, line⟩ :: inParens m ts n) k)

inductive WrittenStatement : Expr → List Lexeme → Prop
  | value {e ts} : Written e ts → WrittenStatement e ts
  | assign {s e ts line j} :
    Written e ts →
    WrittenStatement (.assign s e line) (⟨.name s, j⟩ :: ⟨.mark .equals, line⟩ :: ts)
  | declare {s body ts us line j m n} {params : List (Located String)} :
    Listed (params.map fun p => [Lexeme.ofName p]) us → Written body ts →
    WrittenStatement (.declare s (params.map Located.value) body line)
      (⟨.name s, j⟩ :: inParens m us n ++ ⟨.mark .equals, line⟩ :: ts)

end Expr

inductive WrittenProgram : List Expr → List Lexeme → Prop
  | nil {j} : WrittenProgram [] [⟨.mark .finish, j⟩]
  | cons {s ts program us} :
    s.WrittenStatement ts → WrittenProgram program us → WrittenProgram (s :: program) (ts ++ us)

namespace Parse

variable {e : Expr} {ts us rest : List Lexeme} {power opened line j k : Nat} {s : String}

theorem inParens_append :
    inParens j ts k ++ rest = ⟨.mark .openParen, j⟩ :: (ts ++ ⟨.mark .closeParen, k⟩ :: rest) := by
  simp [inParens]

-- An operand that stays apart from whatever follows it.
structure Grouped (e : Expr) (ts : List Lexeme) : Prop where
  opens : ∃ line us, ts = ⟨.mark .openParen, line⟩ :: us
  reads : ∀ power rest, (expression power (ts ++ rest)).outcome = (extend power e rest).outcome

-- An argument, which ends at a comma or a parenthesis.
structure Item (e : Expr) (ts : List Lexeme) : Prop where
  begins : ∃ t us, ts = t :: us ∧ t.value ≠ .mark .closeParen
  reads  : ∀ rest, Stops rest → (expression innerPower (ts ++ rest)).outcome = .ok (e, rest)

theorem extend_stops_at (h : Stops rest) : (extend power e rest).outcome = .ok (e, rest) :=
  extend_stop (h.left.symm ▸ Nat.zero_le power)

theorem stops_closeParen : Stops (⟨.mark .closeParen, k⟩ :: rest) := ⟨rfl, nofun⟩

theorem stops_comma : Stops (⟨.mark .comma, k⟩ :: rest) := ⟨rfl, nofun⟩

theorem afterArgument_last (opened : Nat) :
    afterArgument opened e (⟨.mark .closeParen, k⟩ :: rest) = .ok ([e], rest) := by
  rw [afterArgument_closing (by simp), closing_paren rfl]

namespace Grouped

theorem inParens
    (h : ∀ rest, Stops rest → (expression innerPower (ts ++ rest)).outcome = .ok (e, rest)) :
    Grouped e (inParens j ts k) where
  opens            := ⟨_, _, rfl⟩
  reads power rest := by
    rw [inParens_append, expression_cons, operand_group rfl, h _ stops_closeParen]
    dsimp only [bind, Except.bind]
    rw [closing_paren rfl]

theorem reads_stop (h : Grouped e ts) (hs : Stops rest) :
    (expression power (ts ++ rest)).outcome = .ok (e, rest) := by
  rw [h.reads, extend_stops_at hs]

theorem item (h : Grouped e ts) : Item e ts where
  begins :=
    have ⟨_, _, ht⟩ := h.opens
    ⟨_, _, ht, nofun⟩
  reads _ hs := h.reads_stop hs

end Grouped

theorem item_name {line : Nat} : Item (.name s line) [⟨.name s, line⟩] where
  begins       := ⟨_, _, rfl, nofun⟩
  reads rest h := by
    rw [List.singleton_append, expression_cons, operand_name rfl h.right]
    exact extend_stops_at h

theorem someArguments_listed {args : List (Expr × List Lexeme)} (h : Listed (args.map Prod.snd) ts)
    (ha : ∀ arg ∈ args, Item arg.1 arg.2) (hn : args ≠ []) :
    (someArguments opened (ts ++ ⟨.mark .closeParen, k⟩ :: rest)).outcome =
      .ok (args.map Prod.fst, rest) := by
  generalize hm : args.map Prod.snd = tss at h
  induction h generalizing args
  case nil => exact absurd (List.map_eq_nil_iff.mp hm) hn
  case single =>
    obtain ⟨arg, rfl, rfl⟩ := List.map_eq_singleton_iff.mp hm
    rw [someArguments_outcome, (ha arg List.mem_cons_self).reads _ stops_closeParen]
    exact afterArgument_last opened
  case cons hi =>
    obtain ⟨arg, others, rfl, rfl, ho⟩ := List.map_eq_cons_iff.mp hm
    rw [List.forall_mem_cons] at ha
    have hr := hi ha.right (by rintro rfl; cases ho) ho
    rw [List.append_assoc, someArguments_outcome, List.cons_append, ha.left.reads _ stops_comma]
    dsimp only [bind, Except.bind]
    rw [afterArgument_comma rfl, hr]
    rfl

theorem arguments_listed {args : List (Expr × List Lexeme)} (h : Listed (args.map Prod.snd) ts)
    (ha : ∀ arg ∈ args, Item arg.1 arg.2) :
    (arguments opened (ts ++ ⟨.mark .closeParen, k⟩ :: rest)).outcome =
      .ok (args.map Prod.fst, rest) := by
  cases args
  case nil =>
    rw [List.map_nil] at h
    cases h
    exact arguments_none rfl
  case cons arg args =>
    obtain ⟨t, us, ht, hc⟩ := (ha arg List.mem_cons_self).begins
    have hs : (someArguments opened (ts ++ ⟨.mark .closeParen, k⟩ :: rest)).outcome =
        .ok ((arg :: args).map Prod.fst, rest) :=
      someArguments_listed h ha (List.cons_ne_nil _ _)
    obtain ⟨vs, rfl⟩ : ∃ vs, ts = t :: vs := by
      rw [List.map_cons, ht] at h
      generalize args.map Prod.snd = tss at h
      cases h
      case single => exact ⟨_, rfl⟩
      case cons   => exact ⟨_, rfl⟩
    rw [List.cons_append] at hs ⊢
    rwa [arguments_some (by exact hc)]

theorem operand_listed {args : List (Expr × List Lexeme)}
    (h : Listed (args.map Prod.snd) ts) (ha : ∀ arg ∈ args, Item arg.1 arg.2) :
    (operand ⟨.name s, line⟩ (inParens j ts k ++ rest)).outcome =
      .ok (.call s (args.map Prod.fst) line, rest) := by
  rw [inParens_append, operand_call rfl rfl, arguments_listed h ha]
  rfl

end Parse

open Parse

variable {e s : Expr} {program : List Expr} {ts us rest : List Lexeme}

theorem Expr.Written.grouped (h : e.Written ts) : Grouped e ts := by
  induction h
  case number =>
    refine .inParens fun rest hs => ?_
    rw [List.singleton_append, expression_cons, operand_number rfl]
    exact extend_stops_at hs
  case name => exact .inParens item_name.reads
  case negate hi =>
    refine .inParens fun rest hs => ?_
    rw [List.cons_append, expression_cons, operand_negation rfl, hi.reads_stop hs]
    exact extend_stops_at hs
  case binary op _ _ _ _ _ _ _ _ _ h₁ h₂ =>
    refine .inParens fun rest hs => ?_
    rw [List.append_assoc, h₁.reads, List.cons_append, extend_operator rfl leftPower_gt,
      h₂.reads_stop hs]
    exact extend_stops_at hs
  case call ha hi =>
    refine .inParens fun rest hs => ?_
    rw [List.cons_append, expression_cons, operand_listed ha fun arg h => (hi arg h).item]
    exact extend_stops_at hs

-- Nothing that begins a statement, and not the end either, binds what stands before it.
theorem WrittenProgram.unbound (h : WrittenProgram program ts) : (current ts).value.leftPower = 0 := by
  cases h
  case nil => rfl
  case cons hs _ =>
    cases hs
    case value h =>
      obtain ⟨_, _, rfl⟩ := h.grouped.opens
      rfl
    case assign  => rfl
    case declare => rfl

theorem mapM_name? (params : List (Located String)) :
    (params.map fun p => Expr.name p.value p.line).mapM Expr.name? = some (params.map Located.value) := by
  induction params
  case nil     => rfl
  case cons hi => simp [hi, Expr.name?]

-- After its left side, a definition takes its right side and nothing else.
theorem extend_definition {left : Expr} {define : Expr → Expr} {line : Nat}
    (hd : definition left line = .ok define) (he : e.Written ts)
    (hr : (current rest).value.leftPower = 0) :
    (extend 0 left (⟨.mark .equals, line⟩ :: ts ++ rest)).outcome = .ok (define e, rest) := by
  have hs (power : Nat) (e : Expr) : (extend power e rest).outcome = .ok (e, rest) :=
    extend_stop (hr.symm ▸ Nat.zero_le power)
  rw [List.cons_append, extend_equals rfl, hd, he.grouped.reads, hs]
  exact hs 0 _

theorem Expr.WrittenStatement.reads (h : s.WrittenStatement ts)
    (hr : (current rest).value.leftPower = 0) :
    (expression 0 (ts ++ rest)).outcome = .ok (s, rest) := by
  cases h
  case value he =>
    rw [he.grouped.reads]
    exact extend_stop (Nat.le_of_eq hr)
  case assign s e ts line j he =>
    rw [List.cons_append, expression_cons, List.cons_append, operand_name rfl (by simp)]
    have hd : definition (.name s j) line = .ok (.assign s · line) := rfl
    exact extend_definition hd he hr
  case declare s body ts us line j m n params hp hb =>
    have hm : params.map (fun p => [Lexeme.ofName p]) =
        (params.map fun p => (Expr.name p.value p.line, [Lexeme.ofName p])).map Prod.snd := by
      rw [List.map_map]
      rfl
    rw [hm] at hp
    rw [List.append_assoc, List.cons_append, expression_cons, operand_listed hp ?items]
    case items =>
      intro arg ha
      obtain ⟨p, _, rfl⟩ := List.mem_map.mp ha
      exact item_name
    have hd : definition (.call s (params.map fun p => .name p.value p.line) j) line =
        .ok (.declare s (params.map Located.value) · line) := by
      rw [definition, mapM_name?]
    rw [List.map_map]
    exact extend_definition hd hb hr

theorem Expr.WrittenStatement.begins (h : s.WrittenStatement ts) :
    ∃ t us, ts = t :: us ∧ t.value ≠ .mark .finish := by
  cases h
  case value h =>
    obtain ⟨_, _, rfl⟩ := h.grouped.opens
    exact ⟨_, _, rfl, nofun⟩
  case assign  => exact ⟨_, _, rfl, nofun⟩
  case declare => exact ⟨_, _, rfl, nofun⟩

theorem WrittenProgram.parse_eq (h : WrittenProgram program ts) : parse ts = .ok program := by
  induction h
  case nil => exact parse_finish rfl
  case cons hs hp hi =>
    obtain ⟨t, us, rfl, ht⟩ := hs.begins
    have hr := hs.reads hp.unbound
    rw [List.cons_append] at hr ⊢
    rw [parse_cons ht, hr]
    dsimp only [bind, Except.bind]
    rw [hi]

theorem Listed.exist (tss : List (List Lexeme)) : ∃ ts, Listed tss ts := by
  match tss with
  | []             => exact ⟨_, .nil⟩
  | [_]            => exact ⟨_, .single⟩
  | _ :: us :: tss =>
    have ⟨_, h⟩ := Listed.exist (us :: tss)
    exact ⟨_, .cons (j := 1) h⟩

theorem exists_items {es : List Expr} (h : ∀ e ∈ es, ∃ ts, e.Written ts) :
    ∃ items : List (Expr × List Lexeme), items.map Prod.fst = es ∧
      ∀ item ∈ items, item.1.Written item.2 := by
  induction es
  case nil => exact ⟨[], rfl, nofun⟩
  case cons e _ hi =>
    rw [List.forall_mem_cons] at h
    have ⟨ts, he⟩ := h.left
    obtain ⟨items, rfl, hw⟩ := hi h.right
    exact ⟨(e, ts) :: items, rfl, List.forall_mem_cons.mpr ⟨he, hw⟩⟩

theorem Expr.Plain.exists_written (h : e.Plain) : ∃ ts, e.Written ts := by
  induction h
  case number => exact ⟨_, .number (j := 1) (k := 1)⟩
  case name   => exact ⟨_, .name (j := 1) (k := 1)⟩
  case negate hi =>
    have ⟨_, h⟩ := hi
    exact ⟨_, .negate (j := 1) (k := 1) h⟩
  case binary h₁ h₂ =>
    have ⟨_, h₁⟩ := h₁
    have ⟨_, h₂⟩ := h₂
    exact ⟨_, .binary (j := 1) (k := 1) h₁ h₂⟩
  case call hi =>
    obtain ⟨items, rfl, hw⟩ := exists_items hi
    have ⟨_, hl⟩ := Listed.exist (items.map Prod.snd)
    exact ⟨_, .call (j := 1) (k := 1) (m := 1) (n := 1) hw hl⟩

theorem Expr.Statement.exists_written (h : s.Statement) : ∃ ts, s.WrittenStatement ts := by
  cases h
  case value h =>
    have ⟨_, h⟩ := h.exists_written
    exact ⟨_, .value h⟩
  case assign h =>
    have ⟨_, h⟩ := h.exists_written
    exact ⟨_, .assign (j := 1) h⟩
  case declare params _ _ h =>
    have ⟨_, h⟩ := h.exists_written
    obtain ⟨params, rfl⟩ : ∃ ps : List (Located String), ps.map Located.value = params :=
      ⟨params.map (⟨·, 1⟩), List.map_map.trans (List.map_id params)⟩
    have ⟨_, hl⟩ := Listed.exist (params.map fun p => [Lexeme.ofName p])
    exact ⟨_, .declare (j := 1) (m := 1) (n := 1) hl h⟩

theorem exists_writtenProgram (h : ∀ s ∈ program, s.Statement) : ∃ ts, WrittenProgram program ts := by
  induction program
  case nil => exact ⟨_, .nil (j := 1)⟩
  case cons hi =>
    rw [List.forall_mem_cons] at h
    have ⟨_, hs⟩ := h.left.exists_written
    have ⟨_, hp⟩ := hi h.right
    exact ⟨_, .cons hs hp⟩

-- The programs that the parser returns are the lists of statements. Each of them can be written, and is
-- parsed back from all tokens that write it.
theorem parse_written_program (program : List Expr) :
    (∀ ts, parse ts = .ok program → ∀ s ∈ program, s.Statement) ∧
    ((∀ s ∈ program, s.Statement) → ∃ ts, WrittenProgram program ts) ∧
    ∀ ts, WrittenProgram program ts → parse ts = .ok program :=
  ⟨fun _ => parse_statements, exists_writtenProgram, fun _ => WrittenProgram.parse_eq⟩

-- `f(x) = (-(x))` and, after it, `(f((pi)))`, on scattered lines.
theorem parse_written_program_of_call :
    let program : List Expr :=
      [.declare "f" ["x"] (.negate (.name "x" 5) 4) 2, .call "f" [.name "pi" 1] 7]
    let f := ⟨.name "f", 8⟩ :: inParens 0 [⟨.name "x", 9⟩] 6 ++ ⟨.mark .equals, 2⟩ ::
      inParens 3 (⟨.mark (.operator .sub), 4⟩ :: inParens 2 [⟨.name "x", 5⟩] 1) 9
    let v := inParens 6 (⟨.name "f", 7⟩ :: inParens 2 (inParens 8 [⟨.name "pi", 1⟩] 8) 3) 0
    let ts := f ++ (v ++ [⟨.mark .finish, 1⟩])
    WrittenProgram program ts ∧ parse ts = .ok program ∧ (∀ s ∈ program, s.Statement) ∧
      ∃ us, WrittenProgram program us := by
  intro program f v ts
  have hl : Listed ([⟨"x", 9⟩].map fun p => [Lexeme.ofName p]) [⟨.name "x", 9⟩] := .single
  have ha : ∀ arg ∈ [(Expr.name "pi" 1, inParens 8 [⟨.name "pi", 1⟩] 8)], arg.1.Written arg.2 :=
    List.forall_mem_singleton.mpr .name
  have hf : Expr.WrittenStatement (.declare "f" ["x"] (.negate (.name "x" 5) 4) 2) f :=
    .declare hl (.negate .name)
  have hv : Expr.WrittenStatement (.call "f" [.name "pi" 1] 7) v := .value (.call ha .single)
  have hw : WrittenProgram program ts := .cons hf (.cons hv .nil)
  have ⟨hs, he, hp⟩ := parse_written_program program
  exact ⟨hw, hp ts hw, hs ts (hp ts hw), he (hs ts (hp ts hw))⟩

end Calculator
