import Calculator.Number.Basic
import Calculator.Table

/-!
# The call stack

A call of a declared function binds its parameters in a frame. The stack knows the frames of the
calls in progress and how many there are. Names are looked up in the innermost frame only.

There are two ways of scoping. With nested frames each call has its own. With a shared frame there
is just one: a call takes it from its caller, and clears it on return, so that the caller finds its
parameters gone.
-/

namespace Calculator

inductive Scoping
  | shared
  | nested
deriving DecidableEq

-- A parameter without an argument is bound to no value.
abbrev Frame := Table (Option Number)

structure CallStack where
  scoping : Scoping
  frames  : List Frame -- innermost first
  depth   : Nat        -- number of calls in progress

namespace CallStack

def empty (scoping : Scoping) : CallStack := ⟨scoping, [], 0⟩

variable (s : CallStack)

-- What a name is bound to, if it is a parameter of the innermost call.
def lookup (name : String) : Option (Option Number) := s.frames.head?.bind (·.get? name)

def enter (frame : Frame) : CallStack :=
  match s.scoping with
  | .shared => { s with frames := [frame], depth := s.depth + 1 }
  | .nested => { s with frames := frame :: s.frames, depth := s.depth + 1 }

-- Leaving without a call in progress changes nothing but the frames of an unbalanced stack.
def leave : CallStack :=
  match s.scoping with
  | .shared => { s with frames := [], depth := s.depth - 1 }
  | .nested => { s with frames := s.frames.tail, depth := s.depth - 1 }

variable {s}

@[simp]
theorem depth_enter {frame : Frame} : (s.enter frame).depth = s.depth + 1 := by
  unfold enter; split <;> rfl

@[simp]
theorem depth_leave : s.leave.depth = s.depth - 1 := by
  unfold leave; split <;> rfl

@[simp]
theorem scoping_enter {frame : Frame} : (s.enter frame).scoping = s.scoping := by
  unfold enter; split <;> rfl

@[simp]
theorem scoping_leave : s.leave.scoping = s.scoping := by
  unfold leave; split <;> rfl

theorem lookup_enter {frame : Frame} {name : String} :
    (s.enter frame).lookup name = frame.get? name := by
  unfold enter; split <;> rfl

theorem leave_enter_of_nested {frame : Frame} (h : s.scoping = .nested) :
    (s.enter frame).leave = s := by
  cases s; simp_all [enter, leave]

end CallStack

end Calculator
