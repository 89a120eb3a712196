import Calculator.Proofs.Eval.Bindings
import Calculator.Proofs.Eval.Frames
import Calculator.Proofs.Parse.Statement

/-!
# Plain evaluation

A plain expression evaluated where all function bodies are plain assigns and declares nothing. If no
call is in progress, it leaves no trace in the context at all, but for the random numbers it has drawn.
-/

namespace Calculator

def Function.Plain : Function → Prop
  | builtin _  => True
  | declared d => d.body.Plain

def Task.Plain {α : Type} : Task α → Prop
  | expr e       => e.Plain
  | args es      => ∀ e ∈ es, e.Plain
  | call f _ _ _ => f.Plain

variable {α : Type} {t : Task α} {c c₁ c₂ c' : Context} {log : List Event} {r : Except EvalError α}
  {e : Expr}

-- The variables and functions stay the same.
structure Kept (c c' : Context) : Prop where
  vars      : c'.vars = c.vars
  functions : c'.functions = c.functions

theorem Kept.trans (h₁ : Kept c c₁) (h₂ : Kept c₁ c₂) : Kept c c₂ where
  vars      := h₂.vars.trans h₁.vars
  functions := h₂.functions.trans h₁.functions

-- The bodies of functions are not part of the tree that is evaluated. They come from the table of
-- functions, which therefore has to stay the same for the calls that follow.
theorem Runs.kept (h : Runs t c log r c') (ht : t.Plain) (hc : c.functions.All Function.Plain) :
    Kept c c' := by
  induction h
  case number | name | unboundName | nil | badArity | tooDeep | builtin => exact ⟨rfl, rfl⟩
  case negate hi =>
    cases ht
    case negate he => exact hi he hc
  case leftError hi =>
    cases ht
    case binary hl _ => exact hi hl hc
  case binary h₁ h₂ =>
    cases ht
    case binary hl hr =>
      have hk := h₁ hl hc
      exact hk.trans (h₂ hr (hk.functions ▸ hc))
  case argsError hi | unboundCall hi =>
    cases ht
    case call ha => exact hi ha hc
  case call hf _ h₁ h₂ =>
    cases ht
    case call ha =>
      have hk := h₁ ha hc
      rw [hk.functions] at hf
      exact hk.trans (h₂ (hc _ _ hf) (hk.functions ▸ hc))
  case assignError | assign | declare => cases ht
  case headError hi => exact hi (ht _ List.mem_cons_self) hc
  case cons h₁ h₂ =>
    have hk := h₁ (ht _ List.mem_cons_self) hc
    exact hk.trans (h₂ (fun e he => ht e (List.mem_cons_of_mem _ he)) (hk.functions ▸ hc))
  case enter hi =>
    have hk := hi ht hc
    exact ⟨hk.vars, hk.functions⟩

-- Contexts that differ in nothing but the random numbers drawn.
def SameButDraws (c c' : Context) : Prop := ∃ draws, c' = { c with draws := draws }

-- Between evaluations no call is in progress, and all function bodies are plain.
structure Context.Settled (c : Context) : Prop where
  frames    : c.stack.frames = []
  depth     : c.stack.depth = 0
  functions : c.functions.All Function.Plain

theorem Balanced.eq_of_afterCall {s s' : CallStack} (h : Balanced s log s') (hs : s.afterCall = s) :
    s' = s := by
  by_cases he : Entering log
  case pos => rw [h.right he, hs]
  case neg => exact h.left he

theorem Runs.sameButDraws (h : Runs t c log r c') (ht : t.Plain) (hc : c.functions.All Function.Plain)
    (hs : c.stack.afterCall = c.stack) : SameButDraws c c' := by
  have hk := h.kept ht hc
  have hs := (h.chained chained_balanced).eq_of_afterCall hs
  have ho := h.chained chained_options
  refine ⟨c'.draws, ?_⟩
  cases c'
  simp [← hk.vars, ← hk.functions, ← hs, ← ho]

theorem Expr.Plain.eval_same (he : e.Plain) (hc : c.Settled) : SameButDraws c (e.eval c).2 := by
  have ⟨_, h⟩ := (Task.expr e).runs c
  exact h.sameButDraws he hc.functions (CallStack.afterCall_of_no_frames hc.frames)

theorem Expr.eval_apply : e.eval c = e.evalWith (Eval.invoke c.remainingDepth) c := by
  simp [Expr.eval]

theorem map_some_ne {r : Except EvalError α} : r.map some ≠ .ok none := by
  cases r <;> simp [Except.map]

theorem Expr.Plain.eval_ne_none (he : e.Plain) : (e.eval c).1 ≠ .ok none := by
  rw [eval_apply]
  cases he
  case number => simp [evalWith]
  case name   => simp [evalWith, map_some_ne]
  case negate =>
    simp only [evalWith, Eval.bind_apply]
    split <;> simp
  case binary =>
    simp only [evalWith, Eval.bind_apply]
    split
    case _ => split <;> simp
    case _ => simp
  case call =>
    simp only [evalWith, Eval.bind_apply, Eval.map_apply]
    split
    case _ =>
      split
      case _ => exact map_some_ne
      case _ => simp
    case _ => simp

end Calculator
