import Calculator.Proofs.Eval.Origins
import Calculator.Proofs.Eval.Simulation

/-!
# Strict arity

With strict arity a call is refused, before anything else, if its arguments are not as many as its
parameters. So a run with strict arity either fails for the number of arguments or does what it would do
without, and a frame that it enters has a value for every parameter.
-/

namespace Calculator

-- The same context with arity enforced or not.
def Context.withStrictArity (c : Context) (strict : Bool) : Context :=
  { c with options := { c.options with strictArity := strict } }

-- The error is that a call has a wrong number of arguments.
def EvalError.Miscounts (err : EvalError) : Prop :=
  ∃ name expected found, err.value = .argumentCount name expected found

def Miscounted {α : Type} (r : Except EvalError α) : Prop := ∃ err, r = .error err ∧ err.Miscounts

-- There is an entry for each of the parameters, and a value in every entry.
structure Frame.Binds (frame : Frame) (params : List String) : Prop where
  params  : ∀ p ∈ params, ∃ x, frame.get? p = some (some x)
  entries : ∀ name, frame.get? name ≠ some none

-- Whatever frame is entered while `e` is evaluated in the context `c`, it binds the parameters of the function
-- whose body is entered with it.
def Expr.BindsParams (e : Expr) (c : Context) : Prop :=
  ∀ log r c', Runs (.expr e) c log r c' → ∀ stack, .entered stack ∈ log →
    ∃ d xs, (Task.expr e).Enters c d xs stack ∧ (d.frame xs).Binds d.params

variable {α : Type} {c c' : Context} {f : Function} {s : String} {xs : List Number} {found line : Nat}
  {d : Declaration} {e : Expr} {program : List Expr} {r : Except EvalError α} {stack : CallStack}

namespace Declaration

theorem bindings_valued {ps : List String} (h : xs.length = ps.length) :
    ∀ entry ∈ bindings ps xs, ∃ x, entry.2 = some x := by
  induction ps generalizing xs
  case nil => simp [bindings]
  case cons p ps hi =>
    cases xs
    case nil       => simp at h
    case cons x xs =>
      rw [bindings, List.forall_mem_cons]
      exact ⟨⟨x, rfl⟩, hi (Nat.succ.inj h)⟩

-- Names that are repeated do no harm, as each of their entries has a value.
theorem frame_binds (h : xs.length = d.params.length) : (d.frame xs).Binds d.params := by
  have hv : (d.frame xs).All fun binding => ∃ x, binding = some x := Table.all_ofList (bindings_valued h)
  refine ⟨fun p hp => ?params, fun name hn => ?entries⟩
  case params =>
    have ⟨binding, hb⟩ := d.exists_frame_get? xs hp
    have ⟨x, hx⟩ := hv p binding hb
    exact ⟨x, hx ▸ hb⟩
  case entries =>
    have ⟨_, hx⟩ := hv name none hn
    cases hx

end Declaration

theorem Arity.check_eq_error {arity : Arity} {err : EvalError} (h : arity.check s found line = .error err) :
    EvalError.Miscounts err := by
  unfold check at h
  split at h
  case _ =>
    split at h
    case isTrue  => cases h
    case isFalse => cases h; exact ⟨_, _, _, rfl⟩
  case _ => cases h

namespace Context

theorem checkArity_lenient : (c.withStrictArity false).checkArity f s found line = .ok () := rfl

theorem checkArity_cases :
    c.checkArity f s found line = .ok () ∨
      ∃ err, c.checkArity f s found line = .error err ∧ EvalError.Miscounts err := by
  match h : c.checkArity f s found line with
  | .ok ()     => exact .inl rfl
  | .error err =>
    unfold checkArity at h
    split at h
    case isTrue  => exact .inr ⟨err, rfl, Arity.check_eq_error h⟩
    case isFalse => cases h

end Context

theorem Admits.length_eq (h : Admits c d s xs line) (hc : c.options.strictArity = true) :
    xs.length = d.params.length := by
  have ha := h.arity
  rw [Context.checkArity, if_pos hc, Function.arity, Arity.check] at ha
  split at ha
  case isTrue hl => exact hl
  case isFalse   => cases ha

theorem simulation_lenient :
    Simulation (fun c c' => c' = c.withStrictArity false) EvalError.Miscounts where
  value hc       := by subst hc; exact .inl rfl
  functions hc   := by subst hc; rfl
  draws hc       := by subst hc; rfl
  depth hc       := by subst hc; rfl
  limit hc       := by subst hc; rfl
  arity hc       := by
    subst hc
    exact Context.checkArity_cases.imp_left fun h => Context.checkArity_lenient.trans h.symm
  assign _ _ hc  := by subst hc; rfl
  declare _ _ hc := by subst hc; rfl
  draw _ hc      := by subst hc; rfl
  enter _ hc     := by subst hc; rfl
  leave _ hc _ _ := by subst hc; rfl

theorem unexcused_of_not_miscounted (h : ¬Miscounted r) : Unexcused EvalError.Miscounts r :=
  fun err hr he => h ⟨err, hr, he⟩

theorem Expr.bindsParams (hc : c.options.strictArity = true) : e.BindsParams c := by
  intro log r c' h stack hs
  have ⟨d, xs, he⟩ := h.enters hs
  refine ⟨d, xs, he, ?_⟩
  cases he
  case intro hv ha => exact Declaration.frame_binds (ha.length_eq (hv.options_eq ▸ hc))

-- Strict arity changes nothing but for the calls that it refuses, and it leaves no parameter without a value.
theorem strict_arity_only_refuses (c : Context) :
    (∀ e : Expr, ¬Miscounted (e.eval (c.withStrictArity true)).1 →
      e.eval (c.withStrictArity false) =
        ((e.eval (c.withStrictArity true)).1, (e.eval (c.withStrictArity true)).2.withStrictArity false)) ∧
    (∀ program, ¬Miscounted (evaluate program (c.withStrictArity true)).1 →
      evaluate program (c.withStrictArity false) =
        ((evaluate program (c.withStrictArity true)).1,
          (evaluate program (c.withStrictArity true)).2.withStrictArity false)) ∧
    (∀ e : Expr, e.BindsParams (c.withStrictArity true)) ∧
    ∀ program done s c', GetsTo program (c.withStrictArity true) done s c' → s.BindsParams c' := by
  refine ⟨fun e hr => ?_, fun program hr => ?_, fun e => e.bindsParams rfl, fun program done s c' h => ?_⟩
  case refine_1 =>
    have ⟨h, hc⟩ := Expr.eval_simulated simulation_lenient rfl (unexcused_of_not_miscounted hr)
    exact Prod.ext h hc
  case refine_2 =>
    have ⟨h, hc⟩ := evaluate_simulated simulation_lenient rfl (unexcused_of_not_miscounted hr)
    exact Prod.ext h hc
  case refine_3 =>
    have ho := (h.keeps (I := fun c' => c'.options.strictArity = true)
      (fun s _ c hc => by rwa [s.eval_options c]) rfl).right
    exact s.bindsParams ho

-- `g` takes its parameter `x` twice, and the last argument for it counts. With strict arity `h(1)` gets through
-- to `g`, while `h()` is refused.
theorem strict_arity_only_refuses_in_body :
    let g : Declaration := ⟨["x", "x"], .name "x" 1⟩
    let h : Declaration := ⟨["z"], .call "g" [.name "z" 2, .number 3 2] 2⟩
    let c : Context :=
      { Context.fresh {} (.ofSeed 0) with
        functions := .ofList [("g", .declared g), ("h", .declared h)] }
    let e : Expr := .call "h" [.number 1 3] 3
    let program : List Expr := [.assign "k" e 3, .assign "m" (.call "h" [.name "k" 4] 4) 4]
    let rest : Expr := .call "h" [] 5
    Miscounted (rest.eval (c.withStrictArity true)).1 ∧
      ¬Miscounted (e.eval (c.withStrictArity true)).1 ∧
      (e.eval (c.withStrictArity false)).1 = .ok (some 3) ∧
      ¬Miscounted (evaluate program (c.withStrictArity true)).1 ∧
      (evaluate program (c.withStrictArity false)).2.vars.get? "m" = some 3 ∧
      e.BindsParams (c.withStrictArity true) ∧
      ∃ c', GetsTo (program ++ [rest]) (c.withStrictArity true) program rest c' ∧ rest.BindsParams c' := by
  intro g h c e program rest
  have he : (e.eval (c.withStrictArity true)).1 = .ok (some 3) := rfl
  have hp : (evaluate program (c.withStrictArity true)).1 = .ok "" := rfl
  have hn {α : Type} {a : α} : ¬Miscounted (.ok a : Except EvalError α) := by simp [Miscounted]
  have hg : GetsTo (program ++ [rest]) (c.withStrictArity true) program rest _ := .next rfl (.next rfl .here)
  have ⟨hr, hpr, hb, hbp⟩ := strict_arity_only_refuses c
  refine ⟨⟨_, rfl, "h", 1, 0, rfl⟩, he ▸ hn, ?_, hp ▸ hn, ?_, hb e, _, hg, hbp _ _ _ _ hg⟩
  case refine_1 => rw [hr e (he ▸ hn), he]
  case refine_2 => rw [hpr program (hp ▸ hn)]; rfl

end Calculator
