import Calculator.CallStack
import Mathlib.Data.List.Basic

/-!
# Open calls

Calls are entered and left in any order, and a stack may be left more often than it was entered. What a stack
holds by then depends on the calls that are still open. With nested frames it holds the frame of each of them.
A shared frame is gone with the first call that is left, and however many calls are open, there is none again
until the next one is entered.
-/

namespace Calculator.CallStack

inductive Step
  | enter (frame : Frame)
  | leave

namespace Step

def apply (s : CallStack) : Step → CallStack
  | enter frame => s.enter frame
  | leave       => s.leave

def isEnter : Step → Bool
  | enter _ => true
  | leave   => false

end Step

def after (s : CallStack) (steps : List Step) : CallStack := steps.foldl Step.apply s

def enters (steps : List Step) : Nat := steps.countP Step.isEnter

def leaves (steps : List Step) : Nat := steps.countP (!·.isEnter)

-- The steps undo an enter right before them: up to one of them, there are more leaves than enters.
def Undo (steps : List Step) : Prop := ∃ part, part <+: steps ∧ enters part < leaves part

-- How many of the leaves undo none of the enters among the steps.
def unmatched : List Step → Nat
  | []               => 0
  | .enter _ :: rest => unmatched rest - 1
  | .leave :: rest   => unmatched rest + 1

variable {s : CallStack} {steps rest : List Step} {step : Step} {frame : Frame} {n : Nat}

@[simp]
theorem enters_nil : enters [] = 0 := rfl

@[simp]
theorem enters_enter : enters (.enter frame :: steps) = enters steps + 1 :=
  List.countP_cons_of_pos rfl

@[simp]
theorem enters_leave : enters (.leave :: steps) = enters steps := rfl

@[simp]
theorem leaves_nil : leaves [] = 0 := rfl

@[simp]
theorem leaves_enter : leaves (.enter frame :: steps) = leaves steps := rfl

@[simp]
theorem leaves_leave : leaves (.leave :: steps) = leaves steps + 1 :=
  List.countP_cons_of_pos rfl

theorem exists_prefix_cons {P : List Step → Prop} :
    (∃ part, part <+: step :: rest ∧ P part) ↔ P [] ∨ ∃ part, part <+: rest ∧ P (step :: part) := by
  simp only [List.prefix_cons_iff]
  constructor
  case mp =>
    rintro ⟨_, rfl | ⟨part, rfl, hp⟩, h⟩
    case inl => exact .inl h
    case inr => exact .inr ⟨part, hp, h⟩
  case mpr =>
    rintro (h | ⟨part, hp, h⟩)
    case inl => exact ⟨[], .inl rfl, h⟩
    case inr => exact ⟨step :: part, .inr ⟨part, rfl, hp⟩, h⟩

theorem lt_unmatched : n < unmatched steps ↔ ∃ part, part <+: steps ∧ enters part + n < leaves part := by
  induction steps generalizing n
  case nil => simp [unmatched]
  case cons step rest hi =>
    rw [exists_prefix_cons]
    cases step
    case enter =>
      rw [unmatched, Nat.lt_sub_iff_add_lt, hi]
      simp [Nat.add_assoc, Nat.add_comm 1]
    case leave =>
      cases n
      case zero   => simpa [unmatched] using ⟨[], List.nil_prefix, by simp⟩
      case succ n => simpa [unmatched, ← Nat.add_assoc] using hi

theorem undo_iff : Undo steps ↔ 0 < unmatched steps := by
  simp [Undo, lt_unmatched]

instance : Decidable (Undo steps) := decidable_of_iff _ undo_iff.symm

-- The frames of the enters that are not undone, in order.
def openFrames : List Step → List Frame
  | []                   => []
  | .enter frame :: rest => if Undo rest then openFrames rest else frame :: openFrames rest
  | .leave :: rest       => openFrames rest

-- The frame of the last step, if that is an enter.
def justEntered (steps : List Step) : Option Frame :=
  match steps.getLast? with
  | some (.enter frame) => some frame
  | _                   => none

theorem depth_after : (s.after steps).depth = (openFrames steps).length + (s.depth - unmatched steps) := by
  induction steps generalizing s
  case nil => simp [after, openFrames, unmatched]
  case cons step rest hi =>
    rw [after, List.foldl_cons, ← after, hi]
    cases step
    case enter =>
      rw [Step.apply, depth_enter, openFrames, unmatched]
      split
      case isTrue hu =>
        rw [undo_iff] at hu
        omega
      case isFalse hu =>
        rw [undo_iff] at hu
        rw [List.length_cons]
        omega
    case leave =>
      rw [Step.apply, depth_leave, openFrames, unmatched]
      omega

theorem frames_after_of_nested (h : s.scoping = .nested) :
    (s.after steps).frames = (openFrames steps).reverse ++ s.frames.drop (unmatched steps) := by
  induction steps generalizing s
  case nil => simp [after, openFrames, unmatched]
  case cons step rest hi =>
    rw [after, List.foldl_cons, ← after]
    cases step
    case enter frame =>
      rw [Step.apply, hi (scoping_enter.trans h), openFrames, unmatched]
      simp only [enter, h]
      split
      case isTrue hu =>
        obtain ⟨n, hn⟩ := Nat.exists_eq_add_one.mpr (undo_iff.mp hu)
        rw [hn]
        rfl
      case isFalse hu =>
        rw [Nat.eq_zero_of_not_pos (mt undo_iff.mpr hu)]
        simp
    case leave =>
      rw [Step.apply, hi (scoping_leave.trans h), openFrames, unmatched, leave, h]
      simp

theorem after_concat : s.after (steps ++ [step]) = step.apply (s.after steps) := by
  simp [after]

theorem scoping_after : (s.after steps).scoping = s.scoping := by
  induction steps generalizing s
  case nil => rfl
  case cons step rest hi =>
    rw [after, List.foldl_cons, ← after, hi]
    cases step
    case enter => exact scoping_enter
    case leave => exact scoping_leave

theorem frames_after_of_shared (h : s.scoping = .shared) (hs : s.frames = []) :
    (s.after steps).frames = (justEntered steps).toList := by
  obtain rfl | ⟨done, step, rfl⟩ := List.eq_nil_or_concat steps
  case inl => exact hs
  case inr =>
    have hc : (s.after done).scoping = .shared := scoping_after.trans h
    rw [List.concat_eq_append, after_concat, justEntered, List.getLast?_concat]
    cases step
    case enter => simp [Step.apply, enter, hc]
    case leave => simp [Step.apply, leave, hc]

-- Whatever has been done to an empty stack, its depth is the number of open calls. Nested frames are those of
-- the open calls, and a shared frame is there right after a call is entered.
theorem holds_open_calls (steps : List Step) :
    let nested := (empty .nested).after steps
    let shared := (empty .shared).after steps
    let opened := openFrames steps
    (nested.depth = opened.length ∧ shared.depth = opened.length) ∧
    (nested.frames = opened.reverse ∧ nested.frames.length = nested.depth ∧
      ∀ name, nested.lookup name = opened.getLast?.bind (·.get? name)) ∧
    (shared.frames = (justEntered steps).toList ∧ shared.frames.length ≤ 1 ∧
      ∀ name, shared.lookup name = (justEntered steps).bind (·.get? name)) := by
  intro nested shared opened
  have hd (scoping : Scoping) : ((empty scoping).after steps).depth = opened.length := by
    simp [depth_after, empty, opened]
  have hn : nested.frames = opened.reverse := by
    simp [nested, frames_after_of_nested, empty, opened]
  have hs : shared.frames = (justEntered steps).toList := frames_after_of_shared rfl rfl
  refine ⟨⟨hd _, hd _⟩, ⟨hn, ?_, fun name => ?_⟩, ⟨hs, ?_, fun name => ?_⟩⟩
  case refine_1 => rw [hn, hd, List.length_reverse]
  case refine_2 => rw [lookup, hn, List.head?_reverse]
  case refine_3 =>
    rw [hs]
    exact Option.length_toList_le
  case refine_4 => rw [lookup, hs, Option.head?_toList]

-- The parameter `x` of a call is lost in a shared frame once a call inside it is left, although its own call is
-- still open.
example :
    let s := (empty .shared).after [.leave, .enter (.ofList [("x", some 1)]), .enter .empty, .leave]
    s.depth = 1 ∧ s.lookup "x" = none := by decide

end Calculator.CallStack
