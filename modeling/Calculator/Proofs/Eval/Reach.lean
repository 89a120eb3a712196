import Calculator.Proofs.Eval.Actions
import Calculator.Proofs.Eval.Plain

/-!
# Reach

Evaluating a plain expression looks up no names but those that can be reached from it: the names in the
expression itself, and those in the bodies of functions that can be reached. What other names stand for has
no influence on it.
-/

namespace Calculator

namespace Expr

-- The functions that evaluating `e` in the context `c` can come to call. Their bodies may call each other in
-- circles.
inductive MayCall (e : Expr) (c : Context) : String → Prop
  | tree {g} : e.Calls g → MayCall e c g
  | body {f d g} : MayCall e c f → c.functions.get? f = some (.declared d) → d.body.Calls g → MayCall e c g

-- The names that it can come to read, as parameters or as variables.
inductive MayRead (e : Expr) (c : Context) (s : String) : Prop
  | tree : .read s ∈ e.actions → MayRead e c s
  | body {f d} : e.MayCall c f → c.functions.get? f = some (.declared d) → .read s ∈ d.body.actions → MayRead e c s

-- Plain, with no calls but of functions in `F`, and no reads but of names in `V`.
inductive Confined (F V : String → Prop) : Expr → Prop
  | number {x line} : Confined F V (.number x line)
  | name {s line} : V s → Confined F V (.name s line)
  | negate {e line} : Confined F V e → Confined F V (.negate e line)
  | binary {op left right line} :
    Confined F V left → Confined F V right → Confined F V (.binary op left right line)
  | call {s args line} : F s → (∀ e ∈ args, Confined F V e) → Confined F V (.call s args line)

end Expr

def Function.Confined (F V : String → Prop) : Function → Prop
  | builtin _  => True
  | declared d => d.body.Confined F V

def Task.Confined {α : Type} (F V : String → Prop) : Task α → Prop
  | expr e       => e.Confined F V
  | args es      => ∀ e ∈ es, e.Confined F V
  | call f _ _ _ => f.Confined F V

-- The contexts have the same functions under the names in `F` and the same variables under those in `V`. All
-- else that is looked at by a run is the same.
structure AgreeOn (F V : String → Prop) (c c' : Context) : Prop where
  functions {s} : F s → c'.functions.get? s = c.functions.get? s
  vars {s} : V s → c'.vars.get? s = c.vars.get? s
  stack   : c'.stack = c.stack
  options : c'.options = c.options
  draws   : c'.draws = c.draws

-- What the functions in `F` can come to call and read is in `F` and `V` again.
def Context.Closed (F V : String → Prop) (c : Context) : Prop :=
  ∀ s f, F s → c.functions.get? s = some f → f.Confined F V

variable {α : Type} {t : Task α} {c c' c₁ : Context} {log : List Event} {r : Except EvalError α}
  {F V : String → Prop} {e : Expr} {s : String} {frame : Frame}

theorem Expr.Plain.confined (he : e.Plain) (hc : ∀ g, e.Calls g → F g)
    (hr : ∀ s, Action.read s ∈ e.actions → V s) : e.Confined F V := by
  induction he
  case number    => exact .number
  case name      => exact .name (hr _ List.mem_cons_self)
  case negate hi => exact .negate (hi hc hr)
  case binary h₁ h₂ =>
    refine .binary (h₁ (fun g hg => ?_) fun s hs => ?_) (h₂ (fun g hg => ?_) fun s hs => ?_)
    case refine_1 => exact hc g (List.mem_append_left _ hg)
    case refine_2 => exact hr s (List.mem_append_left _ hs)
    case refine_3 => exact hc g (List.mem_append_right _ hg)
    case refine_4 => exact hr s (List.mem_append_right _ hs)
  case call s args _ _ hi =>
    have ha {action : Action} {e : Expr} (he : e ∈ args) (h : action ∈ e.actions) :
        action ∈ Expr.argActions args ++ [.called s] := by
      rw [Expr.argActions_eq]
      exact List.mem_append_left _ (List.mem_flatMap.mpr ⟨e, he, h⟩)
    refine .call (hc s (List.mem_append_right _ List.mem_cons_self)) fun e he => ?_
    exact hi e he (fun g hg => hc g (ha he hg)) fun s hs => hr s (ha he hs)

-- All that can be reached is closed under what its functions call and read.
theorem Expr.closed_reach (hc : c.functions.All Function.Plain) : c.Closed (e.MayCall c) (e.MayRead c) := by
  intro s f hs hf
  cases f
  case builtin    => trivial
  case declared d => exact (hc _ _ hf).confined (fun _ hg => .body hs hf hg) fun _ hr => .body hs hf hr

theorem Expr.Plain.confined_reach (he : e.Plain) : e.Confined (e.MayCall c) (e.MayRead c) :=
  he.confined (fun _ hg => .tree hg) fun _ hs => .tree hs

namespace AgreeOn

theorem value?_eq (h : AgreeOn F V c c') (hs : V s) : c'.value? s = c.value? s := by
  rw [Context.value?, Context.value?, h.stack, h.vars hs]

theorem checkArity_eq (h : AgreeOn F V c c') {f : Function} {found line : Nat} :
    c'.checkArity f s found line = c.checkArity f s found line := by
  rw [Context.checkArity, Context.checkArity, h.options]

theorem enter (h : AgreeOn F V c c') :
    AgreeOn F V { c with stack := c.stack.enter frame } { c' with stack := c'.stack.enter frame } :=
  { h with stack := by rw [h.stack] }

theorem leave (h : AgreeOn F V c c') :
    AgreeOn F V { c with stack := c.stack.leave } { c' with stack := c'.stack.leave } :=
  { h with stack := by rw [h.stack] }

end AgreeOn

-- The functions stay the same on the way, so that what is closed stays closed, and every name that the run comes
-- to look up is in `F` or `V`.
theorem Runs.agree (h : Runs t c log r c₁) (ht : t.Confined F V) (hc : c.Closed F V) (ha : AgreeOn F V c c') :
    c₁.Closed F V ∧ ∃ log' c₁', Runs t c' log' r c₁' ∧ AgreeOn F V c₁ c₁' := by
  induction h generalizing c'
  case number => exact ⟨hc, _, _, .number, ha⟩
  case name hv =>
    cases ht
    case name hs => exact ⟨hc, _, _, .name ((ha.value?_eq hs).trans hv), ha⟩
  case unboundName hv =>
    cases ht
    case name hs => exact ⟨hc, _, _, .unboundName ((ha.value?_eq hs).trans hv), ha⟩
  case negate hi =>
    cases ht
    case negate he =>
      have ⟨hc, _, _, hr, ha⟩ := hi he hc ha
      exact ⟨hc, _, _, .negate hr, ha⟩
  case leftError hi =>
    cases ht
    case binary hl _ =>
      have ⟨hc, _, _, hr, ha⟩ := hi hl hc ha
      exact ⟨hc, _, _, .leftError hr, ha⟩
  case binary h₁ h₂ =>
    cases ht
    case binary hl hr =>
      have ⟨hc, _, _, hl, ha⟩ := h₁ hl hc ha
      have ⟨hc, _, _, hr, ha⟩ := h₂ hr hc ha
      exact ⟨hc, _, _, .binary hl hr, ha⟩
  case argsError hi =>
    cases ht
    case call he =>
      have ⟨hc, _, _, hr, ha⟩ := hi he hc ha
      exact ⟨hc, _, _, .argsError hr, ha⟩
  case unboundCall hf hi =>
    cases ht
    case call hs he =>
      have ⟨hc, _, _, hr, ha⟩ := hi he hc ha
      exact ⟨hc, _, _, .unboundCall hr ((ha.functions hs).trans hf), ha⟩
  case call hf _ h₁ h₂ =>
    cases ht
    case call hs he =>
      have ⟨hc, _, _, hl, ha⟩ := h₁ he hc ha
      have hf' := (ha.functions hs).trans hf
      have ⟨hc, _, _, hr, ha⟩ := h₂ (hc _ _ hs hf) hc ha
      exact ⟨hc, _, _, .call hl hf' hr, ha⟩
  case assignError | assign | declare => cases ht
  case nil => exact ⟨hc, _, _, .nil, ha⟩
  case headError hi =>
    have ⟨hc, _, _, hr, ha⟩ := hi (ht _ List.mem_cons_self) hc ha
    exact ⟨hc, _, _, .headError hr, ha⟩
  case cons h₁ h₂ =>
    have ⟨he, hes⟩ := List.forall_mem_cons.mp ht
    have ⟨hc, _, _, hl, ha⟩ := h₁ he hc ha
    have ⟨hc, _, _, hr, ha⟩ := h₂ hes hc ha
    exact ⟨hc, _, _, .cons hl hr, ha⟩
  case badArity h => exact ⟨hc, _, _, .badArity (ha.checkArity_eq.trans h), ha⟩
  case builtin h =>
    have hr := Runs.builtin (ha.checkArity_eq.trans h)
    rw [ha.draws] at hr
    exact ⟨hc, _, _, hr, { ha with draws := rfl }⟩
  case tooDeep h hd =>
    have hr := Runs.tooDeep (ha.checkArity_eq.trans h) (ha.stack ▸ ha.options ▸ hd)
    rw [ha.options] at hr
    exact ⟨hc, _, _, hr, ha⟩
  case enter h hd _ hi =>
    have ⟨hc, _, _, hr, hb⟩ := hi ht hc ha.enter
    have hd := ha.stack ▸ ha.options ▸ hd
    exact ⟨hc, _, _, .enter (ha.checkArity_eq.trans h) hd hr, hb.leave⟩

-- Two evaluations come to the same, and leave the same stack and the same random numbers to come.
structure SameEnd {α : Type} (x y : Except EvalError α × Context) : Prop where
  result : y.1 = x.1
  stack  : y.2.stack = x.2.stack
  draws  : y.2.draws = x.2.draws

theorem Expr.Plain.sameEnd (he : e.Plain) (hc : c.functions.All Function.Plain)
    (ha : AgreeOn (e.MayCall c) (e.MayRead c) c c') : SameEnd (e.eval c) (e.eval c') := by
  have ⟨_, h⟩ := (Task.expr e).runs c
  have ⟨_, _, _, hr, ha⟩ := h.agree he.confined_reach (Expr.closed_reach hc) ha
  have hr : e.eval c' = _ := hr.run_eq
  rw [hr]
  exact ⟨rfl, ha.stack, ha.draws⟩

theorem agreeOn_declare {g : String} {params : List String} {body : Expr} {line : Nat} (hg : ¬F g) :
    AgreeOn F V c ((Expr.declare g params body line).eval c).2 where
  functions hs := Table.get?_insert_of_ne fun h => hg (h ▸ hs)
  vars _       := rfl
  stack        := rfl
  options      := rfl
  draws        := rfl

-- Contexts that agree on what can be reached from an expression give it the same value or error. So does, in
-- particular, a context before and after the declaration of a function that cannot be reached.
theorem eval_depends_on_reach (he : e.Plain) (hc : c.functions.All Function.Plain) :
    (∀ c', AgreeOn (e.MayCall c) (e.MayRead c) c c' → SameEnd (e.eval c) (e.eval c')) ∧
    ∀ g params body line, ¬e.MayCall c g →
      SameEnd (e.eval c) (e.eval ((Expr.declare g params body line).eval c).2) :=
  ⟨fun _ ha => he.sameEnd hc ha, fun _ _ _ _ hg => he.sameEnd hc (agreeOn_declare hg)⟩

-- `f(x) = abs(x) + g(y)` and `g(z) = f(z)` call each other until the limit stops them, where `abs` is a declared
-- function. Neither `k` nor `pi` is in their reach, whatever is made of them.
theorem eval_depends_on_reach_of_cycle :
    let f : Declaration := ⟨["x"], .binary .add (.call "abs" [.name "x" 1] 1) (.call "g" [.name "y" 1] 1) 1⟩
    let g : Declaration := ⟨["z"], .call "f" [.name "z" 2] 2⟩
    let abs : Declaration := ⟨["x"], .binary .mul (.name "x" 3) (.name "x" 3) 3⟩
    let c : Context :=
      { Context.fresh { maxCallDepth := 3 } (.ofSeed 0) with
        vars := .ofList [("y", 2), ("pi", 3)]
        functions := .ofList [("f", .declared f), ("g", .declared g), ("abs", .declared abs), ("k", .declared g)] }
    let c' : Context :=
      { c with
        vars := (c.vars.erase "pi").insert "k" 1
        functions := (c.functions.erase "k").insert "sin" (.declared f) }
    let e : Expr := .call "f" [.name "y" 4] 4
    e.Plain ∧ c.functions.All Function.Plain ∧ AgreeOn (e.MayCall c) (e.MayRead c) c c' ∧
      (e.eval c').1 = .error ⟨.tooDeep "abs" 3, 1⟩ ∧ ¬e.MayCall c "k" ∧
      SameEnd (e.eval c) (e.eval ((Expr.declare "k" [] (.number 1 5) 5).eval c).2) := by
  intro f g abs c c' e
  have hn {s : String} {line : Nat} : ∀ e ∈ [Expr.name s line], e.Plain := by simp [Expr.Plain.name]
  have he : e.Plain := .call hn
  have hc : c.functions.All Function.Plain := by
    have hf : f.body.Plain := .binary (.call hn) (.call hn)
    have hg : g.body.Plain := .call hn
    have ha : abs.body.Plain := .binary .name .name
    exact Table.all_ofList (by simp [Function.Plain, hf, hg, ha])
  have hb : c.functions.All fun f => ∀ d, f = .declared d →
      ∀ a ∈ d.body.actions, a ∈ [.called "f", .called "g", .called "abs", .read "x", .read "y", .read "z"] :=
    Table.all_ofList (by simp [f, g, abs, Expr.actions, Expr.argActions])
  have hcall {s : String} (h : e.MayCall c s) : s ∈ ["f", "g", "abs"] := by
    induction h
    case tree h       => simp_all [e, Expr.Calls, Expr.actions, Expr.argActions]
    case body hd hg _ => simpa using hb _ _ hd _ rfl _ hg
  have hread {s : String} (h : e.MayRead c s) : s ∈ ["x", "y", "z"] := by
    cases h
    case tree h       => simp_all [e, Expr.actions, Expr.argActions]
    case body hd hs   => simpa using hb _ _ hd _ rfl _ hs
  have ha : AgreeOn (e.MayCall c) (e.MayRead c) c c' := by
    refine ⟨fun hs => ?_, fun hs => ?_, rfl, rfl, rfl⟩
    case refine_1 =>
      have hs := hcall hs
      grind [Table.get?_insert, Table.get?_erase]
    case refine_2 =>
      have hs := hread hs
      grind [Table.get?_insert, Table.get?_erase]
  have hk : ¬e.MayCall c "k" := fun h => by simpa using hcall h
  obtain ⟨same, declared⟩ := eval_depends_on_reach he hc
  have hr : (e.eval c).1 = .error ⟨.tooDeep "abs" 3, 1⟩ := rfl
  exact ⟨he, hc, ha, (same c' ha).result.trans hr, hk, declared "k" [] (.number 1 5) 5 hk⟩

end Calculator
