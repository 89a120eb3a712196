import Calculator.Proofs.Eval.Runs

/-!
# Frames

Every call that is entered is left again, whether it fails or not. So an evaluation keeps the depth of
the call stack, and with nested frames all of the stack. A shared frame survives only if no call is
entered.
-/

namespace Calculator

namespace CallStack

-- What a call makes of the stack that it is opened on.
def afterCall (s : CallStack) : CallStack :=
  match s.scoping with
  | .shared => { s with frames := [] }
  | .nested => s

variable {s : CallStack} {frame : Frame}

theorem afterCall_of_nested (h : s.scoping = .nested) : s.afterCall = s := by
  rw [afterCall, h]

theorem afterCall_of_shared (h : s.scoping = .shared) : s.afterCall = { s with frames := [] } := by
  rw [afterCall, h]

theorem afterCall_of_no_frames (h : s.frames = []) : s.afterCall = s := by
  cases s; cases h
  unfold afterCall; split <;> rfl

theorem afterCall_afterCall : s.afterCall.afterCall = s.afterCall := by
  cases h : s.scoping
  case shared => simp [afterCall, h]
  case nested => simp [afterCall_of_nested h]

theorem lookup_afterCall {name : String} :
    s.afterCall.lookup name = if s.scoping = .shared then none else s.lookup name := by
  cases h : s.scoping
  case shared => simp [afterCall_of_shared h, lookup]
  case nested => simp [afterCall_of_nested h]

theorem leave_enter : (s.enter frame).leave = s.afterCall := by
  cases h : s.scoping
  case shared => simp [enter, leave, afterCall, h]
  case nested => rw [leave_enter_of_nested h, afterCall_of_nested h]

theorem leave_afterCall_enter : (s.enter frame).afterCall.leave = s.afterCall := by
  cases h : s.scoping
  case shared => simp [enter, leave, afterCall, h]
  case nested => rw [afterCall_of_nested (scoping_enter.trans h), leave_enter]

end CallStack

-- Whether any call of a declared function is entered.
def Entering (log : List Event) : Prop := ∃ stack, .entered stack ∈ log

theorem not_entering_nil : ¬Entering [] := by
  simp [Entering]

theorem entering_entered {stack : CallStack} {log : List Event} :
    Entering (.entered stack :: log) :=
  ⟨stack, List.mem_cons_self⟩

theorem entering_append {log₁ log₂ : List Event} :
    Entering (log₁ ++ log₂) ↔ Entering log₁ ∨ Entering log₂ := by
  simp [Entering, exists_or]

-- A run leaves the stack as it was, except that calls in between leave their mark on it.
def Balanced (before : CallStack) (log : List Event) (after : CallStack) : Prop :=
  (¬Entering log → after = before) ∧ (Entering log → after = before.afterCall)

variable {s s₁ s₂ : CallStack} {log log₁ log₂ : List Event}

theorem Balanced.refl : Balanced s [] s := by
  simp [Balanced, not_entering_nil]

theorem Balanced.trans (h₁ : Balanced s log₁ s₁) (h₂ : Balanced s₁ log₂ s₂) :
    Balanced s (log₁ ++ log₂) s₂ := by
  simp only [Balanced, entering_append]
  by_cases e₁ : Entering log₁
  case pos =>
    have hs := h₁.right e₁
    by_cases e₂ : Entering log₂
    case pos => simp [e₁, h₂.right e₂, hs, CallStack.afterCall_afterCall]
    case neg => simp [e₁, h₂.left e₂, hs]
  case neg =>
    have hs := h₁.left e₁
    by_cases e₂ : Entering log₂
    case pos => simp [e₂, h₂.right e₂, hs]
    case neg => simp [e₁, e₂, h₂.left e₂, hs]

theorem Balanced.call {frame : Frame} (h : Balanced (s.enter frame) log s₁) :
    Balanced s (.entered (s.enter frame) :: log ++ [.left s₁.leave]) s₁.leave := by
  refine ⟨(absurd entering_entered ·), fun _ => ?_⟩
  by_cases e : Entering log
  case pos => rw [h.right e, CallStack.leave_afterCall_enter]
  case neg => rw [h.left e, CallStack.leave_enter]

theorem chained_balanced : Chained fun c log c' => Balanced c.stack log c'.stack where
  refl _        := .refl
  trans h₁ h₂   := h₁.trans h₂
  assign _ _ _  := .refl
  declare _ _ _ := .refl
  draw _ _      := .refl
  call _ _ h    := h.call

theorem Runs.leave_eq {α : Type} {t : Task α} {c c' : Context} {r : Except EvalError α} {frame : Frame}
    (h : Runs t { c with stack := c.stack.enter frame } log r c') : c'.stack.leave = c.stack.afterCall :=
  (h.chained chained_balanced).call.right entering_entered

theorem chained_scoping : Chained fun c _ c' => c'.stack.scoping = c.stack.scoping where
  refl _        := rfl
  trans h₁ h₂   := h₂.trans h₁
  assign _ _ _  := rfl
  declare _ _ _ := rfl
  draw _ _      := rfl
  call _ _ h    := CallStack.scoping_leave.trans (h.trans CallStack.scoping_enter)

theorem Expr.eval_scoping (e : Expr) (c : Context) : (e.eval c).2.stack.scoping = c.stack.scoping := by
  have ⟨_, h⟩ := (Task.expr e).runs c
  exact h.chained chained_scoping

-- Evaluating `e` in the context `c` enters the body of some declared function.
def Expr.Enters (e : Expr) (c : Context) : Prop :=
  ∃ log, Runs (.expr e) c log (e.eval c).1 (e.eval c).2 ∧ Entering log

-- Whatever the outcome of an evaluation, it leaves every call that it has entered.
theorem eval_balanced (e : Expr) (c : Context) :
    (e.eval c).2.stack.depth = c.stack.depth ∧
    (c.stack.scoping = .nested → (e.eval c).2.stack = c.stack) ∧
    (c.stack.scoping = .shared → ¬e.Enters c → (e.eval c).2.stack = c.stack) ∧
    (c.stack.scoping = .shared → e.Enters c → (e.eval c).2.stack = { c.stack with frames := [] }) := by
  have ⟨log, h⟩ := (Task.expr e).runs c
  rw [← Expr.eval_eq_run] at h
  have hb := h.chained chained_balanced
  refine ⟨h.chained chained_depth, fun hs => ?_, fun _ he => ?_, fun hs ⟨_, h', he⟩ => ?_⟩
  case refine_1 =>
    by_cases he : Entering log
    case pos => rw [hb.right he, CallStack.afterCall_of_nested hs]
    case neg => exact hb.left he
  case refine_2 => exact hb.left fun hl => he ⟨log, h, hl⟩
  case refine_3 =>
    rw [(h'.chained chained_balanced).right he]
    exact CallStack.afterCall_of_shared hs

-- A call inside a call takes the shared frame away from it, but not its depth.
theorem shared_frame_lost :
    let f : Declaration := ⟨[], .number 5 1⟩
    let c : Context :=
      { Context.fresh {} (.ofSeed 0) with
        functions := ⟨[("f", .declared f)]⟩
        stack := ⟨.shared, [.empty], 1⟩ }
    ((Expr.call "f" [] 2).eval c).2.stack = ⟨.shared, [], 1⟩ := by
  intro f c
  have h : Runs (.expr (.call "f" [] 2)) c _ _ _ := .call .nil rfl (.enter rfl (by decide) .number)
  exact (eval_balanced _ _).2.2.2 rfl ⟨_, h, entering_entered⟩

end Calculator
