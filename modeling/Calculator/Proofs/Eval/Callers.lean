import Calculator.Proofs.Eval.Simulation

/-!
# Callers

A body is evaluated with the frame of its own call on top of the stack, and what lies below is looked at by
nobody: neither by the body nor by the functions that it calls, whether or not they take the frame away.
So the frames of its callers have no influence on a call.
-/

namespace Calculator

def Context.withFrames (c : Context) (frames : List Frame) : Context :=
  { c with stack := { c.stack with frames := frames } }

-- The contexts differ only in frames that are out of sight.
structure SameView (c c' : Context) : Prop where
  vars      : c'.vars = c.vars
  functions : c'.functions = c.functions
  options   : c'.options = c.options
  draws     : c'.draws = c.draws
  scoping   : c'.stack.scoping = c.stack.scoping
  depth     : c'.stack.depth = c.stack.depth
  lookup    : ∀ s, c'.stack.lookup s = c.stack.lookup s

variable {c c' c₁ : Context} {frame : Frame} {frames : List Frame} {s : String} {d : Declaration}
  {xs : List Number} {line : Nat} {r : Except EvalError Number} {log : List Event}

namespace SameView

theorem checkArity_eq (h : SameView c c') {f : Function} {found : Nat} :
    c'.checkArity f s found line = c.checkArity f s found line := by
  rw [Context.checkArity, Context.checkArity, h.options]

theorem value?_eq (h : SameView c c') : c'.value? s = c.value? s := by
  rw [Context.value?, Context.value?, h.lookup, h.vars]

-- Below the frame that is entered, any frames do.
theorem of_enter (frames : List Frame) : SameView { c with stack := c.stack.enter frame }
    { c.withFrames frames with stack := (c.withFrames frames).stack.enter frame } where
  vars      := rfl
  functions := rfl
  options   := rfl
  draws     := rfl
  scoping   := by simp [Context.withFrames]
  depth     := by simp [Context.withFrames]
  lookup    := by simp [CallStack.lookup_enter]

end SameView

theorem simulation_sameView : Simulation SameView fun _ => False where
  value hc       := .inl hc.value?_eq
  functions hc   := hc.functions
  draws hc       := hc.draws
  depth hc       := hc.depth
  limit hc       := congrArg Options.maxCallDepth hc.options
  arity hc       := .inl hc.checkArity_eq
  assign s x hc  := { hc with vars := by rw [hc.vars] }
  declare s f hc := { hc with functions := by rw [hc.functions] }
  draw _ hc      := { hc with draws := rfl }
  enter frame hc := { hc with
    scoping := by simp [hc.scoping]
    depth   := by simp [hc.depth]
    lookup  := by simp [CallStack.lookup_enter] }
  leave hc hc₁ hs hs' := { hc₁ with
    scoping := by simp [hc₁.scoping]
    depth   := by simp [hc₁.depth]
    lookup  := by
      intro s
      rw [hs, hs', CallStack.lookup_afterCall, CallStack.lookup_afterCall, hc.scoping, hc.lookup] }

-- What two runs leave behind that is not in their stacks.
structure SameOutcomeButFrames {α : Type} (x y : Except EvalError α × Context) : Prop where
  result    : y.1 = x.1
  vars      : y.2.vars = x.2.vars
  functions : y.2.functions = x.2.functions
  draws     : y.2.draws = x.2.draws

-- A call is refused for reasons that have nothing to do with frames, and a body that it enters sees none but
-- its own.
theorem run_call_withFrames (c : Context) (d : Declaration) (s : String) (xs : List Number) (line : Nat)
    (frames : List Frame) :
    SameOutcomeButFrames ((Task.call (.declared d) s xs line).run c)
      ((Task.call (.declared d) s xs line).run (c.withFrames frames)) := by
  cases ha : c.checkArity (.declared d) s xs.length line
  case error =>
    have h  := (Runs.badArity ha).run_eq
    have h' := (Runs.badArity (c := c.withFrames frames) ha).run_eq
    rw [h, h']
    exact ⟨rfl, rfl, rfl, rfl⟩
  case ok =>
    by_cases hd : c.stack.depth < c.options.maxCallDepth
    case neg =>
      have hd := Nat.le_of_not_lt hd
      have h  := (Runs.tooDeep ha hd).run_eq
      have h' := (Runs.tooDeep (c := c.withFrames frames) ha hd).run_eq
      rw [h, h']
      exact ⟨rfl, rfl, rfl, rfl⟩
    case pos =>
      have ⟨_, hb⟩ := (Task.expr d.body).runs { c with stack := c.stack.enter (d.frame xs) }
      have ⟨_, _, hb', hc⟩ :=
        hb.simulated simulation_sameView (.of_enter frames) fun _ _ => not_false
      have h  := (Runs.enter ha hd hb).run_eq
      have h' := (Runs.enter (c := c.withFrames frames) ha hd hb').run_eq
      rw [h, h']
      exact ⟨rfl, hc.vars, hc.functions, hc.draws⟩

-- A call comes out the same whatever the frames of its caller and those below are.
theorem call_ignores_callers (c : Context) (d : Declaration) (s : String) (xs : List Number) (line : Nat)
    (frames frames' : List Frame) :
    let outcome (frames : List Frame) :=
      (Function.declared d).call (Eval.invoke c.remainingDepth) s xs line (c.withFrames frames)
    (outcome frames').1 = (outcome frames).1 ∧
      (outcome frames').2.vars = (outcome frames).2.vars ∧
      (outcome frames').2.functions = (outcome frames).2.functions ∧
      (outcome frames').2.draws = (outcome frames).2.draws := by
  intro outcome
  have ⟨hr, hv, hf, hd⟩ := run_call_withFrames (c.withFrames frames) d s xs line frames'
  exact ⟨hr, hv, hf, hd⟩

end Calculator
