import Calculator.Proofs.Eval.Runs
import Mathlib.Data.List.Induction

/-!
# Depth

Every evaluation ends, whatever the context and however its functions call each other. While it lasts,
the depth of the call stack is the depth that it starts from and one for each call in progress, and a
call is entered only below the depth limit.
-/

namespace Calculator

namespace Event

def stack : Event → CallStack
  | entered stack | left stack => stack

-- How many calls more are in progress after the event.
def change : Event → Int
  | entered _ => 1
  | left _    => -1

end Event

-- How many more calls a log enters than it leaves.
def inProgress : List Event → Int
  | []           => 0
  | event :: log => event.change + inProgress log

-- The stack that a log leaves, if it starts from the stack `s`.
def stackAfter (s : CallStack) (log : List Event) : CallStack :=
  log.foldl (fun _ event => event.stack) s

-- From the stack `s`, calls are entered below the limit, and left while they are in progress.
inductive Paired (s : CallStack) (limit : Nat) : List Event → Prop
  | nil : Paired s limit []
  | enter {log} (frame) :
    Paired s limit log → (stackAfter s log).depth < limit →
    Paired s limit (log ++ [.entered ((stackAfter s log).enter frame)])
  | leave {log} :
    Paired s limit log → 0 < inProgress log →
    Paired s limit (log ++ [.left (stackAfter s log).leave])

variable {s : CallStack} {limit : Nat} {log log₁ log₂ done rest : List Event} {event : Event}
  {c c' : Context}

@[simp]
theorem inProgress_nil : inProgress [] = 0 := rfl

@[simp]
theorem inProgress_cons : inProgress (event :: log) = event.change + inProgress log := rfl

@[simp]
theorem inProgress_append : inProgress (log₁ ++ log₂) = inProgress log₁ + inProgress log₂ := by
  induction log₁
  case nil     => simp
  case cons hi => simp [hi, Int.add_assoc]

@[simp]
theorem stackAfter_concat : stackAfter s (log ++ [event]) = event.stack := by
  simp [stackAfter]

-- How deep the stack is after a log.
structure DepthKept (s : CallStack) (limit : Nat) (log : List Event) : Prop where
  calls : 0 ≤ inProgress log
  depth : (stackAfter s log).depth = s.depth + inProgress log
  bound : (stackAfter s log).depth ≤ max s.depth limit

namespace Paired

theorem depthKept (h : Paired s limit log) : DepthKept s limit log := by
  induction h
  case nil => exact ⟨Int.le_refl 0, by simp [inProgress, stackAfter], Nat.le_max_left _ _⟩
  case enter hl hi =>
    have ⟨hc, hd, _⟩ := hi
    refine ⟨?calls, ?depth, ?bound⟩
    case calls => simp [Event.change]; omega
    case depth => simp [Event.change, Event.stack]; omega
    case bound => simp [Event.stack]; omega
  case leave hp hi =>
    have ⟨hc, hd, hb⟩ := hi
    refine ⟨?calls, ?depth, ?bound⟩
    case calls => simp [Event.change]; omega
    case depth => simp [Event.change, Event.stack]; omega
    case bound => simp [Event.stack]; omega

theorem of_concat (h : Paired s limit (log ++ [event])) :
    Paired s limit log ∧ ∀ stack, event = .entered stack →
      (stackAfter s log).depth < limit ∧ ∃ frame, stack = (stackAfter s log).enter frame := by
  generalize hl : log ++ [event] = log' at h
  cases h
  case nil => simp at hl
  case enter frame h hd =>
    obtain ⟨rfl, he⟩ := List.append_inj' hl rfl
    cases he
    exact ⟨h, fun _ he => by cases he; exact ⟨hd, frame, rfl⟩⟩
  case leave h _ =>
    obtain ⟨rfl, he⟩ := List.append_inj' hl rfl
    cases he
    exact ⟨h, nofun⟩

theorem of_append (h : Paired s limit (done ++ rest)) : Paired s limit done := by
  induction rest using List.reverseRecOn
  case nil => rwa [List.append_nil] at h
  case append_singleton hi =>
    rw [← List.append_assoc] at h
    exact hi h.of_concat.left

theorem entry {stack : CallStack} (h : Paired s limit (done ++ .entered stack :: rest)) :
    (stackAfter s done).depth < limit ∧ ∃ frame, stack = (stackAfter s done).enter frame := by
  rw [List.append_cons] at h
  exact h.of_append.of_concat.right stack rfl

end Paired

-- A log may follow any log that leaves the stack it starts from.
structure Continues (c : Context) (log : List Event) (c' : Context) : Prop where
  options : c'.options = c.options
  paired (s : CallStack) (done : List Event) :
    Paired s c.options.maxCallDepth done → stackAfter s done = c.stack →
    Paired s c.options.maxCallDepth (done ++ log) ∧ stackAfter s (done ++ log) = c'.stack
  calls : inProgress log = 0

theorem Continues.nil (ho : c'.options = c.options) (hs : c'.stack = c.stack) : Continues c [] c' where
  options := ho
  paired _ _ hp hd := by simpa [hs] using ⟨hp, hd⟩
  calls   := rfl

theorem Continues.trans {c₁ c₂ : Context} (h₁ : Continues c log₁ c₁) (h₂ : Continues c₁ log₂ c₂) :
    Continues c (log₁ ++ log₂) c₂ where
  options := h₂.options.trans h₁.options
  paired s done hp hs := by
    have ⟨hp₁, hs₁⟩ := h₁.paired s done hp hs
    have h := h₂.paired s (done ++ log₁) (h₁.options ▸ hp₁) hs₁
    rwa [h₁.options, List.append_assoc] at h
  calls := by simp [h₁.calls, h₂.calls]

theorem Continues.call {frame : Frame} (hd : c.stack.depth < c.options.maxCallDepth)
    (h : Continues { c with stack := c.stack.enter frame } log c') :
    Continues c (.entered (c.stack.enter frame) :: log ++ [.left c'.stack.leave])
      { c' with stack := c'.stack.leave } where
  options := h.options
  paired s done hp hs := by
    have hl : done ++ (.entered (c.stack.enter frame) :: log ++ [.left c'.stack.leave]) =
        done ++ [.entered (c.stack.enter frame)] ++ log ++ [.left c'.stack.leave] := by simp
    have hp₁ : Paired s c.options.maxCallDepth (done ++ [.entered (c.stack.enter frame)]) :=
      hs ▸ hp.enter frame (hs ▸ hd)
    have ⟨hp₂, hs₂⟩ := h.paired s _ hp₁ stackAfter_concat
    have hc : 0 < inProgress (done ++ [.entered (c.stack.enter frame)] ++ log) := by
      have hc := hp.depthKept.calls
      simp [h.calls, Event.change]
      omega
    rw [hl]
    exact ⟨hs₂ ▸ hp₂.leave hc, stackAfter_concat⟩
  calls := by simp [h.calls, Event.change]

theorem chained_continues : Chained Continues where
  refl _        := .nil rfl rfl
  trans         := .trans
  assign _ _ _  := .nil rfl rfl
  declare _ _ _ := .nil rfl rfl
  draw _ _      := .nil rfl rfl
  call _        := .call

variable {α : Type} {t : Task α} {r : Except EvalError α}

theorem Runs.paired (h : Runs t c log r c') : Paired c.stack c.options.maxCallDepth log :=
  ((h.chained chained_continues).paired c.stack [] .nil rfl).left

theorem Runs.stackAfter_eq (h : Runs t c log r c') : stackAfter c.stack log = c'.stack :=
  ((h.chained chained_continues).paired c.stack [] .nil rfl).right

-- Every evaluation ends, and has only one way to go. At each moment on its way, which cuts its log in
-- two, the depth is kept, and a call that is entered next is entered below the limit.
theorem eval_ends_within_limit (e : Expr) (c : Context) :
    (∃ log, Runs (.expr e) c log (e.eval c).1 (e.eval c).2) ∧
    ∀ log r c', Runs (.expr e) c log r c' →
      e.eval c = (r, c') ∧ stackAfter c.stack log = c'.stack ∧
      ∀ done rest, log = done ++ rest →
        DepthKept c.stack c.options.maxCallDepth done ∧
        ∀ stack later, rest = .entered stack :: later →
          (stackAfter c.stack done).depth < c.options.maxCallDepth ∧
          ∃ frame, stack = (stackAfter c.stack done).enter frame := by
  refine ⟨(Task.expr e).runs c, fun log r c' h => ⟨h.run_eq, h.stackAfter_eq, ?_⟩⟩
  rintro done rest rfl
  refine ⟨h.paired.of_append.depthKept, ?_⟩
  rintro stack later rfl
  exact h.paired.entry

end Calculator
