import Calculator.Proofs.Eval.Session

/-!
# The depth limit

The limit on the depth of calls is looked at nowhere but where a call is opened, and an error is never
caught. So a run that is not stopped by its limit goes on in the same way under any greater one, and
leaves the same behind.
-/

namespace Calculator

-- The same context under another limit.
def Context.withLimit (c : Context) (limit : Nat) : Context :=
  { c with options := { c.options with maxCallDepth := limit } }

-- Whether the result is that a call was too deep.
def TooDeep {α : Type} (r : Except EvalError α) : Prop :=
  ∃ name limit line, r = .error ⟨.tooDeep name limit, line⟩

variable {α β : Type} {t : Task α} {c c' : Context} {log : List Event} {r : Except EvalError α}
  {program : List Expr} {n m : Nat}

theorem not_tooDeep_ok {a : α} : ¬TooDeep (.ok a : Except EvalError α) := by
  simp [TooDeep]

theorem tooDeep_map {f : α → β} : TooDeep (r.map f) ↔ TooDeep r := by
  cases r <;> simp [TooDeep, Except.map]

theorem tooDeep_error {e : EvalError} :
    TooDeep (.error e : Except EvalError β) ↔ TooDeep (.error e : Except EvalError α) := by
  simp [TooDeep]

-- A call that is opened below the limit is opened below a greater one too, and nothing else in the
-- rules depends on the limit.
theorem Runs.raise (h : Runs t c log r c') (hr : ¬TooDeep r) (hm : c.options.maxCallDepth ≤ m) :
    Runs t (c.withLimit m) log r (c'.withLimit m) := by
  induction h
  case number           => exact .number
  case name hv          => exact .name hv
  case unboundName hv   => exact .unboundName hv
  case negate hi        => exact .negate (hi (mt tooDeep_map.mpr hr) hm)
  case leftError hi     => exact .leftError (hi (mt tooDeep_error.mpr hr) hm)
  case binary hl _ h₁ h₂ =>
    have hm' := hl.chained chained_options ▸ hm
    exact .binary (h₁ not_tooDeep_ok hm) (h₂ (mt tooDeep_map.mpr hr) hm')
  case argsError hi      => exact .argsError (hi (mt tooDeep_error.mpr hr) hm)
  case unboundCall hf hi => exact .unboundCall (hi not_tooDeep_ok hm) hf
  case call hl hf _ h₁ h₂ =>
    have hm' := hl.chained chained_options ▸ hm
    exact .call (h₁ not_tooDeep_ok hm) hf (h₂ (mt tooDeep_map.mpr hr) hm')
  case assignError hi   => exact .assignError (hi (mt tooDeep_error.mpr hr) hm)
  case assign hi        => exact .assign (hi not_tooDeep_ok hm)
  case declare          => exact .declare
  case nil              => exact .nil
  case headError hi     => exact .headError (hi (mt tooDeep_error.mpr hr) hm)
  case cons hl _ h₁ h₂ =>
    have hm' := hl.chained chained_options ▸ hm
    exact .cons (h₁ not_tooDeep_ok hm) (h₂ (mt tooDeep_map.mpr hr) hm')
  case badArity h       => exact .badArity h
  case builtin h        => exact .builtin h
  case tooDeep          => exact absurd ⟨_, _, _, rfl⟩ hr
  case enter h hd _ hi =>
    have hd' := Nat.lt_of_lt_of_le hd hm
    exact .enter (c := Context.withLimit _ m) h hd' (hi (mt tooDeep_map.mpr hr) hm)

theorem Expr.eval_raise {e : Expr} (hr : ¬TooDeep (e.eval c).1) (hm : c.options.maxCallDepth ≤ m) :
    e.eval (c.withLimit m) = ((e.eval c).1, (e.eval c).2.withLimit m) := by
  have ⟨_, h⟩ := (Task.expr e).runs c
  exact (h.raise hr hm).run_eq

theorem evaluate_raise (hr : ¬TooDeep (evaluate program c).1) (hm : c.options.maxCallDepth ≤ m) :
    evaluate program (c.withLimit m) = ((evaluate program c).1, (evaluate program c).2.withLimit m) := by
  induction program generalizing c
  case nil => rfl
  case cons s rest hi =>
    have ho := s.eval_options c
    match h : s.eval c with
    | (.error e, c₁) =>
      rw [evaluate_cons_error h] at hr ⊢
      have hs := Expr.eval_raise (e := s) (by rw [h]; exact mt tooDeep_error.mpr hr) hm
      rw [h] at hs
      exact evaluate_cons_error hs
    | (.ok v, c₁) =>
      rw [evaluate_cons_ok h rfl] at hr ⊢
      have hs := Expr.eval_raise (e := s) (by rw [h]; exact not_tooDeep_ok) hm
      rw [h] at hs ho
      exact evaluate_cons_ok hs (hi (mt tooDeep_map.mpr hr) (ho ▸ hm))

-- What is not stopped by a limit comes out the same under a greater one.
theorem raising_limit_keeps_outcome (c : Context) (h : n ≤ m) :
    (∀ e : Expr, ¬TooDeep (e.eval (c.withLimit n)).1 →
      e.eval (c.withLimit m) = ((e.eval (c.withLimit n)).1, (e.eval (c.withLimit n)).2.withLimit m)) ∧
    ∀ program, ¬TooDeep (evaluate program (c.withLimit n)).1 →
      evaluate program (c.withLimit m) =
        ((evaluate program (c.withLimit n)).1, (evaluate program (c.withLimit n)).2.withLimit m) :=
  ⟨fun _ hr => Expr.eval_raise hr h, fun _ hr => evaluate_raise hr h⟩

-- With `h(x) = x` and `g(x) = h(x) + y`, a limit of 2 is enough to see that `y` is undefined.
theorem raising_limit_keeps_outcome_in_body :
    let h : Declaration := ⟨["x"], .name "x" 1⟩
    let g : Declaration := ⟨["x"], .binary .add (.call "h" [.name "x" 2] 2) (.name "y" 2) 2⟩
    let c : Context :=
      { Context.fresh {} (.ofSeed 0) with
        functions := .ofList [("h", .declared h), ("g", .declared g)] }
    let e : Expr := .call "g" [.name "pi" 3] 3
    let program := [.assign "z" (.call "h" [.name "e" 3] 3) 3, e]
    2 ≤ 256 ∧ ¬TooDeep (e.eval (c.withLimit 2)).1 ∧ ¬TooDeep (evaluate program (c.withLimit 2)).1 ∧
      (e.eval (c.withLimit 256)).1 = .error ⟨.undefined "y", 2⟩ ∧
      (evaluate program (c.withLimit 256)).1 = .error ⟨.undefined "y", 2⟩ ∧
      (evaluate program (c.withLimit 256)).2.vars.get? "z" = c.vars.get? "e" := by
  intro h g c e program
  have he : (e.eval (c.withLimit 2)).1 = .error ⟨.undefined "y", 2⟩ := rfl
  have hp : (evaluate program (c.withLimit 2)).1 = .error ⟨.undefined "y", 2⟩ := rfl
  have hn {α : Type} : ¬TooDeep (.error ⟨.undefined "y", 2⟩ : Except EvalError α) := by simp [TooDeep]
  have hr := raising_limit_keeps_outcome c (by decide : 2 ≤ 256)
  have hpr := hr.right program (hp ▸ hn)
  refine ⟨by decide, he ▸ hn, hp ▸ hn, ?_, ?_, ?_⟩
  case refine_1 => rw [hr.left e (he ▸ hn), he]
  case refine_2 => rw [hpr, hp]
  case refine_3 => rw [hpr]; rfl

end Calculator
