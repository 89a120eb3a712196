import Calculator.Eval

/-!
# Runs

A run is an evaluation from beginning to end: how it goes on from a context, which calls it enters and
leaves on its way, its result and the context it leaves behind. The rules for runs follow the shape of
what is evaluated and know nothing of a bound on calls but the depth limit of the options. Every
evaluation is a run, and there is no other run. What holds along all runs is shown by induction on
their rules.
-/

namespace Calculator

-- What can be evaluated, by what it evaluates to.
inductive Task : Type → Type
  | expr (e : Expr) : Task Value
  | args (es : List Expr) : Task (List Number)
  | call (f : Function) (name : String) (args : List Number) (line : Nat) : Task Number

namespace Task

variable {α : Type}

def runWith (invoke : Invoke) : Task α → Eval α
  | expr e              => e.evalWith invoke
  | args es             => Expr.evalArgs invoke es
  | call f name xs line => f.call invoke name xs line

def run (t : Task α) : Eval α := do
  t.runWith (Eval.invoke (← get).remainingDepth)

end Task

-- The calls of declared functions, each with the stack that it finds or leaves.
inductive Event
  | entered (stack : CallStack)
  | left (stack : CallStack)

-- Only with strict arity are the arguments of a function counted.
def Context.checkArity (c : Context) (f : Function) (name : String) (found line : Nat) :
    Except EvalError Unit :=
  if c.options.strictArity then f.arity.check name found line else .ok ()

inductive Runs : {α : Type} → Task α → Context → List Event → Except EvalError α → Context → Prop
  -- expressions
  | number : Runs (.expr (.number x line)) c [] (.ok (some x)) c
  | name : c.value? s = some x → Runs (.expr (.name s line)) c [] (.ok (some x)) c
  | unboundName :
    c.value? s = none → Runs (.expr (.name s line)) c [] (.error ⟨.undefined s, line⟩) c
  | negate :
    Runs (.expr e) c log r c₁ →
    Runs (.expr (.negate e line)) c log (r.map fun v => some (-v.number)) c₁
  | leftError :
    Runs (.expr left) c log (.error err) c₁ →
    Runs (.expr (.binary op left right line)) c log (.error err) c₁
  | binary :
    Runs (.expr left) c log₁ (.ok v) c₁ →
    Runs (.expr right) c₁ log₂ r c₂ →
    Runs (.expr (.binary op left right line)) c (log₁ ++ log₂)
      (r.map fun w => some (op.apply v.number w.number)) c₂
  | argsError :
    Runs (.args es) c log (.error err) c₁ →
    Runs (.expr (.call s es line)) c log (.error err) c₁
  | unboundCall :
    Runs (.args es) c log (.ok xs) c₁ →
    c₁.functions.get? s = none →
    Runs (.expr (.call s es line)) c log (.error ⟨.undefined s, line⟩) c₁
  | call :
    Runs (.args es) c log₁ (.ok xs) c₁ →
    c₁.functions.get? s = some f →
    Runs (.call f s xs line) c₁ log₂ r c₂ →
    Runs (.expr (.call s es line)) c (log₁ ++ log₂) (r.map some) c₂
  | assignError :
    Runs (.expr e) c log (.error err) c₁ →
    Runs (.expr (.assign s e line)) c log (.error err) c₁
  | assign :
    Runs (.expr e) c log (.ok v) c₁ →
    Runs (.expr (.assign s e line)) c log (.ok none) { c₁ with vars := c₁.vars.insert s v.number }
  | declare :
    Runs (.expr (.declare s params body line)) c [] (.ok none)
      { c with functions := c.functions.insert s (.declared ⟨params, body⟩) }
  -- arguments
  | nil : Runs (.args []) c [] (.ok []) c
  | headError :
    Runs (.expr e) c log (.error err) c₁ →
    Runs (.args (e :: es)) c log (.error err) c₁
  | cons :
    Runs (.expr e) c log₁ (.ok v) c₁ →
    Runs (.args es) c₁ log₂ r c₂ →
    Runs (.args (e :: es)) c (log₁ ++ log₂) (r.map (v.number :: ·)) c₂
  -- calls
  | badArity :
    c.checkArity f s xs.length line = .error err →
    Runs (.call f s xs line) c [] (.error err) c
  | builtin :
    c.checkArity (.builtin b) s xs.length line = .ok () →
    Runs (.call (.builtin b) s xs line) c [] (.ok (b.apply xs c.draws).1)
      { c with draws := (b.apply xs c.draws).2 }
  | tooDeep :
    c.checkArity (.declared d) s xs.length line = .ok () →
    c.options.maxCallDepth ≤ c.stack.depth →
    Runs (.call (.declared d) s xs line) c []
      (.error ⟨.tooDeep s c.options.maxCallDepth, line⟩) c
  | enter :
    c.checkArity (.declared d) s xs.length line = .ok () →
    c.stack.depth < c.options.maxCallDepth →
    Runs (.expr d.body) { c with stack := c.stack.enter (d.frame xs) } log r c₁ →
    Runs (.call (.declared d) s xs line) c
      (.entered (c.stack.enter (d.frame xs)) :: log ++ [.left c₁.stack.leave])
      (r.map Value.number) { c₁ with stack := c₁.stack.leave }

-- A relation between the contexts before and after a run, and what is entered and left in between,
-- holds of all runs if it can be chained and holds of whatever changes a context.
structure Chained (R : Context → List Event → Context → Prop) : Prop where
  refl (c) : R c [] c
  trans {c c₁ c₂ log₁ log₂} : R c log₁ c₁ → R c₁ log₂ c₂ → R c (log₁ ++ log₂) c₂
  assign (c s x) : R c [] { c with vars := c.vars.insert s x }
  declare (c s f) : R c [] { c with functions := c.functions.insert s f }
  draw (c draws) : R c [] { c with draws := draws }
  call {c c₁ log} (frame) : c.stack.depth < c.options.maxCallDepth →
    R { c with stack := c.stack.enter frame } log c₁ →
    R c (.entered (c.stack.enter frame) :: log ++ [.left c₁.stack.leave])
      { c₁ with stack := c₁.stack.leave }

variable {α : Type} {t : Task α} {c c' : Context} {log : List Event} {r : Except EvalError α}
  {R : Context → List Event → Context → Prop} {n : Nat}

theorem Runs.chained (h : Runs t c log r c') (hr : Chained R) : R c log c' := by
  induction h
  case number | name | unboundName | nil | badArity | tooDeep => exact hr.refl _
  case negate hi | leftError hi | argsError hi | unboundCall hi | assignError hi | headError hi =>
    exact hi
  case binary h₁ h₂ | call h₁ h₂ | cons h₁ h₂ => exact hr.trans h₁ h₂
  case assign v _ s _ _ hi =>
    have h := hr.trans hi (hr.assign _ s v.number)
    rwa [List.append_nil] at h
  case declare  => exact hr.declare _ _ _
  case builtin  => exact hr.draw _ _
  case enter hd _ hi => exact hr.call _ hd hi

theorem chained_options : Chained fun c _ c' => c'.options = c.options where
  refl _        := rfl
  trans h₁ h₂   := h₂.trans h₁
  assign _ _ _  := rfl
  declare _ _ _ := rfl
  draw _ _      := rfl
  call _ _ h    := h

theorem chained_depth : Chained fun c _ c' => c'.stack.depth = c.stack.depth where
  refl _        := rfl
  trans h₁ h₂   := h₂.trans h₁
  assign _ _ _  := rfl
  declare _ _ _ := rfl
  draw _ _      := rfl
  call _ _ h    := by simp [h]

theorem Runs.remainingDepth_eq (h : Runs t c log r c') : c'.remainingDepth = c.remainingDepth := by
  rw [Context.remainingDepth, h.chained chained_options, h.chained chained_depth]
  rfl

theorem Eval.checkArity_apply {c : Context} {f : Function} {name : String} {found line : Nat} :
    checkArity f.arity name found line c = (c.checkArity f name found line, c) := rfl

theorem Eval.invoke_zero_apply {c : Context} {name : String} {d : Declaration} {xs : List Number}
    {line : Nat} :
    invoke 0 name d xs line c = (.error ⟨.tooDeep name c.options.maxCallDepth, line⟩, c) := rfl

theorem Eval.invoke_succ_apply {c : Context} {name : String} {d : Declaration} {xs : List Number}
    {line : Nat} :
    invoke (n + 1) name d xs line c =
      let inside := d.body.evalWith (invoke n) { c with stack := c.stack.enter (d.frame xs) }
      (inside.1.map Value.number, { inside.2 with stack := inside.2.stack.leave }) := by
  simp only [invoke, within_apply, bind_apply]
  split <;> simp_all [Except.map]

theorem Context.remainingDepth_eq_zero :
    c.remainingDepth = 0 ↔ c.options.maxCallDepth ≤ c.stack.depth := by
  rw [remainingDepth]
  omega

theorem Context.remainingDepth_pos :
    0 < c.remainingDepth ↔ c.stack.depth < c.options.maxCallDepth := by
  rw [remainingDepth]
  omega

theorem Context.remainingDepth_enter (frame : Frame) (h : c.remainingDepth = n + 1) :
    { c with stack := c.stack.enter frame }.remainingDepth = n := by
  simp only [remainingDepth, CallStack.depth_enter] at *
  omega

theorem Runs.runWith_eq (h : Runs t c log r c') (hn : c.remainingDepth = n) :
    t.runWith (Eval.invoke n) c = (r, c') := by
  induction h generalizing n
  all_goals simp only [Task.runWith] at *
  case number => rfl
  case name h => simp [Expr.evalWith, Eval.value_apply, h, Except.map]
  case unboundName h => simp [Expr.evalWith, Eval.value_apply, h, Except.map]
  case negate r _ _ _ hi => cases r <;> simp [Expr.evalWith, hi hn, Except.map]
  case leftError hi => simp [Expr.evalWith, hi hn]
  case binary r _ _ _ hl _ h₁ h₂ =>
    have hr := h₂ (hl.remainingDepth_eq.trans hn)
    cases r <;> simp [Expr.evalWith, h₁ hn, hr, Except.map]
  case argsError hi => simp [Expr.evalWith, hi hn]
  case unboundCall hf hi => simp [Expr.evalWith, hi hn, Eval.function_apply, hf]
  case call hl hf _ h₁ h₂ =>
    have hr := h₂ (hl.remainingDepth_eq.trans hn)
    simp [Expr.evalWith, h₁ hn, Eval.function_apply, hf, hr]
  case assignError hi => simp [Expr.evalWith, hi hn]
  case assign hi => simp [Expr.evalWith, hi hn, Eval.define_apply]
  case declare => rfl
  case nil => rfl
  case headError hi => simp [Expr.evalArgs, hi hn]
  case cons r _ hl _ h₁ h₂ =>
    have hr := h₂ (hl.remainingDepth_eq.trans hn)
    cases r <;> simp [Expr.evalArgs, h₁ hn, hr, Except.map]
  case badArity h => simp [Function.call, Eval.checkArity_apply, h]
  case builtin h => simp [Function.call, Eval.checkArity_apply, h, Eval.builtin_apply]
  case tooDeep h hd =>
    obtain rfl := hn.symm.trans (Context.remainingDepth_eq_zero.mpr hd)
    simp [Function.call, Eval.checkArity_apply, h, Eval.invoke_zero_apply]
  case enter h hd _ hi =>
    obtain ⟨n, rfl⟩ := Nat.exists_eq_add_one.mpr (hn ▸ Context.remainingDepth_pos.mpr hd)
    have hb := hi (Context.remainingDepth_enter _ hn)
    simp [Function.call, Eval.checkArity_apply, h, Eval.invoke_succ_apply, hb]

theorem Runs.run_eq (h : Runs t c log r c') : t.run c = (r, c') := by
  simp [Task.run, h.runWith_eq rfl]

-- Where a task can be run to its end.
def Task.Runnable (t : Task α) (c : Context) : Prop := ∃ log r c', Runs t c log r c'

-- Calls are runnable where bodies are that may open one call less inside each other, and
-- expressions are runnable where the calls in them are.

def CallsRunnable (n : Nat) : Prop :=
  ∀ {c : Context} f name xs line, c.remainingDepth = n → (Task.call f name xs line).Runnable c

mutual

theorem Expr.runnable (hc : CallsRunnable n) {c : Context} (hn : c.remainingDepth = n) :
    (e : Expr) → (Task.expr e).Runnable c
  | .number _ _ => ⟨_, _, _, .number⟩
  | .name s _ => by
    cases h : c.value? s
    case none => exact ⟨_, _, _, .unboundName h⟩
    case some => exact ⟨_, _, _, .name h⟩
  | .negate operand _ =>
    have ⟨_, _, _, h⟩ := operand.runnable hc hn
    ⟨_, _, _, .negate h⟩
  | .binary _ left right _ =>
    match left.runnable hc hn with
    | ⟨_, .error _, _, h⟩ => ⟨_, _, _, .leftError h⟩
    | ⟨_, .ok _, _, h⟩ =>
      have ⟨_, _, _, h'⟩ := right.runnable hc (h.remainingDepth_eq.trans hn)
      ⟨_, _, _, .binary h h'⟩
  | .call s args line =>
    match Expr.runnable_args hc hn args with
    | ⟨_, .error _, _, h⟩ => ⟨_, _, _, .argsError h⟩
    | ⟨_, .ok xs, c₁, h⟩ => by
      cases hf : c₁.functions.get? s
      case none   => exact ⟨_, _, _, .unboundCall h hf⟩
      case some f =>
        have ⟨_, _, _, h'⟩ := hc f s xs line (h.remainingDepth_eq.trans hn)
        exact ⟨_, _, _, .call h hf h'⟩
  | .assign _ value _ =>
    match value.runnable hc hn with
    | ⟨_, .error _, _, h⟩ => ⟨_, _, _, .assignError h⟩
    | ⟨_, .ok _, _, h⟩    => ⟨_, _, _, .assign h⟩
  | .declare _ _ _ _ => ⟨_, _, _, .declare⟩

theorem Expr.runnable_args (hc : CallsRunnable n) {c : Context} (hn : c.remainingDepth = n) :
    (es : List Expr) → (Task.args es).Runnable c
  | [] => ⟨_, _, _, .nil⟩
  | e :: es =>
    match e.runnable hc hn with
    | ⟨_, .error _, _, h⟩ => ⟨_, _, _, .headError h⟩
    | ⟨_, .ok _, _, h⟩ =>
      have ⟨_, _, _, h'⟩ := Expr.runnable_args hc (h.remainingDepth_eq.trans hn) es
      ⟨_, _, _, .cons h h'⟩

end

theorem Function.runnable (n : Nat) : CallsRunnable n := by
  intro c f name xs line hn
  cases ha : c.checkArity f name xs.length line
  case error => exact ⟨_, _, _, .badArity ha⟩
  case ok =>
    match f, n with
    | .builtin b,  _     => exact ⟨_, _, _, .builtin ha⟩
    | .declared d, 0     => exact ⟨_, _, _, .tooDeep ha (Context.remainingDepth_eq_zero.mp hn)⟩
    | .declared d, n + 1 =>
      have hd := Context.remainingDepth_pos.mp (by omega : 0 < c.remainingDepth)
      have hb := Context.remainingDepth_enter (d.frame xs) hn
      have ⟨_, _, _, h⟩ := d.body.runnable (Function.runnable n) hb
      exact ⟨_, _, _, .enter ha hd h⟩

theorem Task.runnable (c : Context) : (t : Task α) → t.Runnable c
  | expr e              => e.runnable (Function.runnable _) rfl
  | args es             => Expr.runnable_args (Function.runnable _) rfl es
  | call f name xs line => Function.runnable _ f name xs line rfl

theorem Task.runs (t : Task α) (c : Context) : ∃ log, Runs t c log (t.run c).1 (t.run c).2 := by
  have ⟨log, _, _, h⟩ := t.runnable c
  exact ⟨log, h.run_eq ▸ h⟩

theorem ok_of_map {α β : Type} {f : α → β} {x : Except EvalError α} {b : β} (h : x.map f = .ok b) :
    ∃ a, x = .ok a ∧ f a = b := by
  cases x
  case error => cases h
  case ok a  => cases h; exact ⟨a, rfl, rfl⟩

theorem error_of_map {α β : Type} {f : α → β} {x : Except EvalError α} {err : EvalError}
    (h : x.map f = .error err) : x = .error err := by
  cases x
  case error => cases h; rfl
  case ok    => cases h

theorem Expr.eval_eq_run (e : Expr) : e.eval = (Task.expr e).run := rfl

theorem Expr.eval_options (e : Expr) (c : Context) : (e.eval c).2.options = c.options := by
  have ⟨_, h⟩ := (Task.expr e).runs c
  exact h.chained chained_options

end Calculator
