import Calculator.Proofs.Eval.Session

/-!
# Simulation

A run reads little of its context: the value of a name, a function, the number of arguments that a function
takes, how deep calls are. Where two contexts look the same in all of this, and keep to it in whatever is
done to both, runs from them go on alike. They part only where the first one fails with an error that is
excused.
-/

namespace Calculator

-- The related contexts look the same to a run, and go on to do so.
structure Simulation (R : Context → Context → Prop) (Excused : EvalError → Prop) : Prop where
  value {c c' s} : R c c' →
    c'.value? s = c.value? s ∨ c.value? s = none ∧ ∀ line, Excused ⟨.undefined s, line⟩
  functions {c c'} : R c c' → c'.functions = c.functions
  draws {c c'} : R c c' → c'.draws = c.draws
  depth {c c'} : R c c' → c'.stack.depth = c.stack.depth
  limit {c c'} : R c c' → c'.options.maxCallDepth = c.options.maxCallDepth
  arity {c c' f name found line} : R c c' →
    c'.checkArity f name found line = c.checkArity f name found line ∨
      ∃ err, c.checkArity f name found line = .error err ∧ Excused err
  assign {c c'} (s x) : R c c' →
    R { c with vars := c.vars.insert s x } { c' with vars := c'.vars.insert s x }
  declare {c c'} (s f) : R c c' →
    R { c with functions := c.functions.insert s f } { c' with functions := c'.functions.insert s f }
  draw {c c'} (draws) : R c c' → R { c with draws := draws } { c' with draws := draws }
  enter {c c'} (frame) : R c c' →
    R { c with stack := c.stack.enter frame } { c' with stack := c'.stack.enter frame }
  leave {c c' c₁ c₁'} : R c c' → R c₁ c₁' →
    c₁.stack.leave = c.stack.afterCall → c₁'.stack.leave = c'.stack.afterCall →
    R { c₁ with stack := c₁.stack.leave } { c₁' with stack := c₁'.stack.leave }

-- The result is no error that is excused.
def Unexcused {α : Type} (Excused : EvalError → Prop) (r : Except EvalError α) : Prop :=
  ∀ err, r = .error err → ¬Excused err

variable {α β : Type} {R : Context → Context → Prop} {Excused : EvalError → Prop} {t : Task α}
  {c c' c₁ : Context} {log : List Event} {r : Except EvalError α} {program : List Expr}

namespace Unexcused

theorem ok {a : α} : Unexcused Excused (.ok a : Except EvalError α) := nofun

theorem of_error {err : EvalError} (h : Unexcused Excused (.error err : Except EvalError β)) :
    Unexcused Excused (.error err : Except EvalError α) := by
  intro _ he
  cases he
  exact h err rfl

theorem of_map {f : α → β} (h : Unexcused Excused (r.map f)) : Unexcused Excused r := by
  cases r
  case error => exact of_error h
  case ok    => exact ok

end Unexcused

theorem Simulation.arity_eq (hR : Simulation R Excused) (hc : R c c') {f : Function} {name : String}
    {found line : Nat} {checked : Except EvalError Unit} (h : c.checkArity f name found line = checked)
    (hr : Unexcused Excused checked) : c'.checkArity f name found line = checked := by
  have ha : c'.checkArity f name found line = c.checkArity f name found line :=
    (hR.arity hc).resolve_right fun ⟨err, ha, he⟩ => hr err (h.symm.trans ha) he
  exact ha.trans h

theorem Runs.simulated (hR : Simulation R Excused) (h : Runs t c log r c₁) (hc : R c c')
    (hr : Unexcused Excused r) : ∃ log' c₁', Runs t c' log' r c₁' ∧ R c₁ c₁' := by
  induction h generalizing c'
  case number => exact ⟨_, _, .number, hc⟩
  case name hv =>
    have he := (hR.value hc).resolve_right fun he => by cases hv.symm.trans he.left
    exact ⟨_, _, .name (he.trans hv), hc⟩
  case unboundName hv =>
    have he := (hR.value hc).resolve_right fun he => hr _ rfl (he.right _)
    exact ⟨_, _, .unboundName (he.trans hv), hc⟩
  case negate hi =>
    have ⟨_, _, h, hc⟩ := hi hc hr.of_map
    exact ⟨_, _, .negate h, hc⟩
  case leftError hi =>
    have ⟨_, _, h, hc⟩ := hi hc hr.of_error
    exact ⟨_, _, .leftError h, hc⟩
  case binary h₁ h₂ =>
    have ⟨_, _, hl, hc⟩ := h₁ hc .ok
    have ⟨_, _, h, hc⟩ := h₂ hc hr.of_map
    exact ⟨_, _, .binary hl h, hc⟩
  case argsError hi =>
    have ⟨_, _, h, hc⟩ := hi hc hr.of_error
    exact ⟨_, _, .argsError h, hc⟩
  case unboundCall hf hi =>
    have ⟨_, _, h, hc⟩ := hi hc .ok
    exact ⟨_, _, .unboundCall h (hR.functions hc ▸ hf), hc⟩
  case call hf _ h₁ h₂ =>
    have ⟨_, _, hl, hc⟩ := h₁ hc .ok
    have hf := hR.functions hc ▸ hf
    have ⟨_, _, h, hc⟩ := h₂ hc hr.of_map
    exact ⟨_, _, .call hl hf h, hc⟩
  case assignError hi =>
    have ⟨_, _, h, hc⟩ := hi hc hr.of_error
    exact ⟨_, _, .assignError h, hc⟩
  case assign hi =>
    have ⟨_, _, h, hc⟩ := hi hc .ok
    exact ⟨_, _, .assign h, hR.assign _ _ hc⟩
  case declare => exact ⟨_, _, .declare, hR.declare _ _ hc⟩
  case nil => exact ⟨_, _, .nil, hc⟩
  case headError hi =>
    have ⟨_, _, h, hc⟩ := hi hc hr.of_error
    exact ⟨_, _, .headError h, hc⟩
  case cons h₁ h₂ =>
    have ⟨_, _, hl, hc⟩ := h₁ hc .ok
    have ⟨_, _, h, hc⟩ := h₂ hc hr.of_map
    exact ⟨_, _, .cons hl h, hc⟩
  case badArity ha => exact ⟨_, _, .badArity (hR.arity_eq hc ha hr.of_error), hc⟩
  case builtin ha =>
    have h := Runs.builtin (hR.arity_eq hc ha .ok)
    rw [hR.draws hc] at h
    exact ⟨_, _, h, hR.draw _ hc⟩
  case tooDeep ha hd =>
    have h := Runs.tooDeep (hR.arity_eq hc ha .ok) (hR.depth hc ▸ hR.limit hc ▸ hd)
    rw [hR.limit hc] at h
    exact ⟨_, _, h, hc⟩
  case enter ha hd hb hi =>
    have ⟨_, _, h, hc₁⟩ := hi (hR.enter _ hc) hr.of_map
    have hd := hR.depth hc ▸ hR.limit hc ▸ hd
    exact ⟨_, _, .enter (hR.arity_eq hc ha .ok) hd h, hR.leave hc hc₁ hb.leave_eq h.leave_eq⟩

theorem Expr.eval_simulated (hR : Simulation R Excused) {e : Expr} (hc : R c c')
    (hr : Unexcused Excused (e.eval c).1) :
    (e.eval c').1 = (e.eval c).1 ∧ R (e.eval c).2 (e.eval c').2 := by
  have ⟨_, h⟩ := (Task.expr e).runs c
  have ⟨_, _, h, hc₁⟩ := h.simulated hR hc hr
  have he : e.eval c' = _ := h.run_eq
  rw [he]
  exact ⟨rfl, hc₁⟩

theorem evaluate_simulated (hR : Simulation R Excused) (hc : R c c')
    (hr : Unexcused Excused (evaluate program c).1) :
    (evaluate program c').1 = (evaluate program c).1 ∧ R (evaluate program c).2 (evaluate program c').2 := by
  induction program generalizing c c'
  case nil => exact ⟨rfl, hc⟩
  case cons s rest hi =>
    match h : s.eval c with
    | (.error err, c₁) =>
      rw [evaluate_cons_error h] at hr ⊢
      have ⟨hs, hc₁⟩ := Expr.eval_simulated hR (e := s) hc (h ▸ hr.of_error)
      rw [h] at hs hc₁
      have h' : s.eval c' = (.error err, (s.eval c').2) := Prod.ext hs rfl
      rw [evaluate_cons_error h']
      exact ⟨rfl, hc₁⟩
    | (.ok v, c₁) =>
      rw [evaluate_cons_ok h rfl] at hr ⊢
      have ⟨hs, hc₁⟩ := Expr.eval_simulated hR (e := s) hc (h ▸ .ok)
      rw [h] at hs hc₁
      have h' : s.eval c' = (.ok v, (s.eval c').2) := Prod.ext hs rfl
      have ⟨hr, hc₂⟩ := hi hc₁ hr.of_map
      rw [evaluate_cons_ok h' rfl, hr]
      exact ⟨rfl, hc₂⟩

end Calculator
