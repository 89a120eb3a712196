import Calculator.Proofs.Eval.Simulation

/-!
# Arguments

Without strict arity a function may be called with too many arguments, where those without a parameter count
for nothing, or with too few. A parameter without an argument matters only if it is read. Otherwise the call
comes out as with any value in its place.
-/

namespace Calculator

-- The contexts differ in nothing but the innermost frame, where some of the parameters `missing`, which have no
-- value in the first one, have a value in the second one.
structure Completes (missing : List String) (c c' : Context) : Prop where
  vars      : c'.vars = c.vars
  functions : c'.functions = c.functions
  options   : c'.options = c.options
  draws     : c'.draws = c.draws
  scoping   : c'.stack.scoping = c.stack.scoping
  depth     : c'.stack.depth = c.stack.depth
  lookup s  : c'.stack.lookup s = c.stack.lookup s ∨ s ∈ missing ∧ c.stack.lookup s = some none

-- The error is that one of these names is undefined.
def EvalError.Misses (names : List String) (err : EvalError) : Prop := ∃ s ∈ names, err.value = .undefined s

variable {missing : List String} {c c' c₁ : Context} {s : String} {d : Declaration}
  {xs ys more : List Number} {line : Nat} {stack : CallStack} {frame frame' : Frame}

theorem Declaration.frame_take : d.frame (xs.take d.params.length) = d.frame xs :=
  congrArg Table.ofList bindings_take

-- A name that is repeated has its value from the last of its places.
theorem Declaration.frame_append :
    (d.frame (xs ++ more)).get? s = (d.frame xs).get? s ∨
      s ∈ d.params.drop xs.length ∧ (d.frame xs).get? s = some none := by
  have hx : d.frame xs = _ := congrArg (fun xs => Table.ofList (bindings d.params xs)) (List.append_nil xs).symm
  rw [hx, frame, bindings_append, bindings_append, Table.get?_ofList_append, Table.get?_ofList_append]
  by_cases hs : s ∈ d.params.drop xs.length
  case pos =>
    have ⟨_, hb⟩ : ∃ x, (Table.ofList (bindings (d.params.drop xs.length) [])).get? s = some x :=
      Table.exists_get?_ofList (exists_mem_bindings hs)
    have hn : (Table.ofList (bindings (d.params.drop xs.length) [])).All (· = none) :=
      Table.all_ofList bindings_nil
    cases hn _ _ hb
    exact .inr ⟨hs, by rw [hb]; rfl⟩
  case neg =>
    have hn (ys : List Number) : (Table.ofList (bindings (d.params.drop xs.length) ys)).get? s = none :=
      Table.get?_ofList_of_not_mem fun _ he h => hs (h ▸ mem_params_of_mem_bindings _ he)
    exact .inl (by rw [hn, hn])

namespace Completes

theorem value?_eq (h : Completes missing c c') :
    c'.value? s = c.value? s ∨ c.value? s = none ∧ s ∈ missing := by
  rw [Context.value?, Context.value?, h.vars]
  cases h.lookup s
  case inl hl => exact .inl (by rw [hl])
  case inr hl => exact .inr ⟨by rw [hl.right], hl.left⟩

theorem of_enter (c : Context)
    (h : ∀ s, frame'.get? s = frame.get? s ∨ s ∈ missing ∧ frame.get? s = some none) :
    Completes missing { c with stack := c.stack.enter frame } { c with stack := c.stack.enter frame' } where
  vars      := rfl
  functions := rfl
  options   := rfl
  draws     := rfl
  scoping   := by simp
  depth     := by simp
  lookup s  := by
    simp only [CallStack.lookup_enter]
    exact h s

theorem eq_on_stack (h : Completes missing c c') : { c' with stack := stack } = { c with stack := stack } := by
  rw [h.vars, h.functions, h.options, h.draws]

end Completes

theorem simulation_completes : Simulation (Completes missing) (EvalError.Misses missing) where
  value hc       := hc.value?_eq.imp_right fun h => ⟨h.left, fun _ => ⟨_, h.right, rfl⟩⟩
  functions hc   := hc.functions
  draws hc       := hc.draws
  depth hc       := hc.depth
  limit hc       := congrArg Options.maxCallDepth hc.options
  arity hc       := .inl (by rw [Context.checkArity, Context.checkArity, hc.options])
  assign s x hc  := { hc with vars := by rw [hc.vars] }
  declare s f hc := { hc with functions := by rw [hc.functions] }
  draw _ hc      := { hc with draws := rfl }
  enter frame hc := { hc with
    scoping  := by simp [hc.scoping]
    depth    := by simp [hc.depth]
    lookup _ := .inl (by simp [CallStack.lookup_enter]) }
  leave hc hc₁ hs hs' := { hc₁ with
    scoping  := by simp [hc₁.scoping]
    depth    := by simp [hc₁.depth]
    lookup s := by
      rw [hs, hs', CallStack.lookup_afterCall, CallStack.lookup_afterCall, hc.scoping]
      split
      case isTrue  => exact .inl rfl
      case isFalse => exact hc.lookup s }

theorem checkArity_of_lenient (hc : c.options.strictArity = false) {f : Function} {found : Nat} :
    c.checkArity f s found line = .ok () := by
  rw [Context.checkArity, hc]
  rfl

-- The bodies run alike unless one of the parameters is missed, and whatever frames they leave behind are left.
theorem run_call_of_frames (hc : c.options.strictArity = false)
    (hf : ∀ s, (d.frame ys).get? s = (d.frame xs).get? s ∨ s ∈ missing ∧ (d.frame xs).get? s = some none) :
    (∃ p ∈ missing, ∃ l, ((Task.call (.declared d) s xs line).run c).1 = .error ⟨.undefined p, l⟩) ∨
      (Task.call (.declared d) s ys line).run c = (Task.call (.declared d) s xs line).run c := by
  have ha {found : Nat} : c.checkArity (.declared d) s found line = .ok () := checkArity_of_lenient hc
  by_cases hd : c.stack.depth < c.options.maxCallDepth
  case neg =>
    have hd := Nat.le_of_not_lt hd
    exact .inr (by rw [(Runs.tooDeep ha hd).run_eq, (Runs.tooDeep ha hd).run_eq])
  case pos =>
    have ⟨_, r, _, h⟩ := (Task.expr d.body).runnable { c with stack := c.stack.enter (d.frame xs) }
    by_cases hr : Unexcused (EvalError.Misses missing) r
    case pos =>
      have ⟨_, _, h', hb⟩ := h.simulated simulation_completes (.of_enter c hf) hr
      refine .inr ?_
      rw [(Runs.enter ha hd h).run_eq, (Runs.enter ha hd h').run_eq, h.leave_eq, h'.leave_eq, hb.eq_on_stack]
    case neg =>
      simp only [Unexcused, Classical.not_forall, Classical.not_not] at hr
      obtain ⟨⟨_, l⟩, rfl, p, hp, rfl⟩ := hr
      exact .inl ⟨p, hp, l, congrArg Prod.fst (Runs.enter ha hd h).run_eq⟩

theorem run_call_take (hc : c.options.strictArity = false) :
    (Task.call (.declared d) s xs line).run c =
      (Task.call (.declared d) s (xs.take d.params.length) line).run c := by
  let ys := xs.take d.params.length
  have hf (s : String) :
      (d.frame xs).get? s = (d.frame ys).get? s ∨ s ∈ [] ∧ (d.frame ys).get? s = some none :=
    .inl (by rw [Declaration.frame_take])
  obtain ⟨_, hp, _⟩ | h := run_call_of_frames hc hf
  case inl => exact absurd hp List.not_mem_nil
  case inr => exact h

-- Without strict arity, arguments beyond the last parameter make no difference to a call, and arguments that are
-- missing make none unless the call fails for one of the parameters that have got none.
theorem wrong_argument_count_tolerated (hc : c.options.strictArity = false) (d : Declaration) (s : String)
    (xs : List Number) (line : Nat) :
    let outcome (xs : List Number) := (Function.declared d).call (Eval.invoke c.remainingDepth) s xs line c
    (d.params.length < xs.length → outcome xs = outcome (xs.take d.params.length)) ∧
    (xs.length < d.params.length → ∀ more, more.length = d.params.length - xs.length →
      (∃ p ∈ d.params.drop xs.length, ∃ l, (outcome xs).1 = .error ⟨.undefined p, l⟩) ∨
        outcome (xs ++ more) = outcome xs) := by
  intro outcome
  constructor
  case left =>
    intro _
    have h : (Task.call (.declared d) s xs line).run c = _ := run_call_take hc
    exact h
  case right =>
    intro _ more _
    have h : _ ∨ (Task.call (.declared d) s (xs ++ more) line).run c = _ :=
      run_call_of_frames hc fun _ => Declaration.frame_append
    exact h

-- `k(a, b) = b` and `f(x, y) = k(k(x, x), y)`, with a variable `y`. The `y` of a call `f(1)` is missed if frames
-- are nested. A shared frame is gone by the time it is read, so the variable is found, as it is by `f(1, 7)`.
theorem wrong_argument_count_tolerated_in_cleared_frame :
    let k : Declaration := ⟨["a", "b"], .name "b" 1⟩
    let f : Declaration := ⟨["x", "y"], .call "k" [.call "k" [.name "x" 2, .name "x" 2] 2, .name "y" 2] 2⟩
    let c (scoping : Scoping) : Context :=
      { Context.fresh { scoping } (.ofSeed 0) with
        vars := .ofList [("y", 5)]
        functions := .ofList [("k", .declared k)] }
    let outcome (scoping : Scoping) (xs : List Number) :=
      (Function.declared f).call (Eval.invoke (c scoping).remainingDepth) "f" xs 3 (c scoping)
    (∀ scoping, (c scoping).options.strictArity = false) ∧
      (outcome .nested [1]).1 = .error ⟨.undefined "y", 2⟩ ∧
      (outcome .shared [1]).1 = .ok 5 ∧ outcome .shared [1, 7] = outcome .shared [1] ∧
      outcome .shared [1, 7, 9] = outcome .shared [1, 7] := by
  intro k f c outcome
  have hc (scoping : Scoping) : (c scoping).options.strictArity = false := rfl
  have tolerated := wrong_argument_count_tolerated (hc .shared) f "f"
  have hs : (outcome .shared [1]).1 = .ok 5 := rfl
  refine ⟨hc, rfl, hs, ?_, (tolerated [1, 7, 9] 3).left (by decide)⟩
  obtain ⟨_, _, _, hm⟩ | h := (tolerated [1] 3).right (by decide) [7] rfl
  case inl => exact absurd (hs.symm.trans hm) nofun
  case inr => exact h

end Calculator
