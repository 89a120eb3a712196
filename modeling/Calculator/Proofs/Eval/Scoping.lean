import Calculator.Proofs.Eval.Actions
import Calculator.Proofs.Eval.Session

/-!
# Scoping

A call takes the shared frame away from the body that makes it. The body can tell only by reading a
parameter after the call. A program whose bodies never do that evaluates alike with a shared frame and
with nested ones.
-/

namespace Calculator

def Expr.declared? : Expr → Option String
  | declare s _ _ _ => some s
  | _               => none

-- The names of the functions that a program declares. No declaration stands inside a statement.
def declaredNames (program : List Expr) : List String := program.filterMap Expr.declared?

-- After the first action of a body with the parameters `params`, the second one cannot tell whether
-- a call of a function in `declared` has taken its frame.
def Action.Spares (declared params : List String) : Action → Action → Prop
  | called f, read s => f ∈ declared → s ∉ params
  | _,        _      => True

instance {declared params : List String} : DecidableRel (Action.Spares declared params)
  | .called f, .read s                => inferInstanceAs (Decidable (f ∈ declared → s ∉ params))
  | .called _, .called _ | .read _, _ => isTrue trivial

-- A body that is declared reads no parameter after it has completed a call of a function in `declared`.
def Expr.ReadsParamsFirst (declared : List String) : Expr → Prop
  | declare _ params body _ => body.actions.Pairwise (Action.Spares declared params)
  | _                       => True

instance {declared : List String} : DecidablePred (Expr.ReadsParamsFirst declared)
  | .declare _ params body _ =>
    inferInstanceAs (Decidable (body.actions.Pairwise (Action.Spares declared params)))
  | .number _ _ | .name _ _ | .negate _ _ | .binary _ _ _ _ | .call _ _ _ | .assign _ _ _ =>
    isTrue trivial

def ReadsParamsFirst (program : List Expr) : Prop :=
  ∀ s ∈ program, s.ReadsParamsFirst (declaredNames program)

instance {program : List Expr} : Decidable (ReadsParamsFirst program) :=
  inferInstanceAs (Decidable (∀ s ∈ program, _))

structure Declaration.Known (declared : List String) (name : String) (d : Declaration) : Prop where
  mem   : name ∈ declared
  plain : d.body.Plain
  first : d.body.actions.Pairwise (Action.Spares declared d.params)

def Function.Known (declared : List String) (name : String) : Function → Prop
  | .builtin _  => True
  | .declared d => d.Known declared name

-- The contexts of two evaluations of one body, with a shared frame and with nested ones. The parameters
-- of the body are `params`, and `done` is what it has done so far.
structure Alike (declared params : List String) (done : List Action) (c c' : Context) : Prop where
  shared       : c.stack.scoping = .shared
  nested       : c'.stack.scoping = .nested
  depth        : c'.stack.depth = c.stack.depth
  vars         : c'.vars = c.vars
  functions    : c'.functions = c.functions
  draws        : c'.draws = c.draws
  strictArity  : c'.options.strictArity = c.options.strictArity
  maxCallDepth : c'.options.maxCallDepth = c.options.maxCallDepth
  known {s f} : c.functions.get? s = some f → f.Known declared s
  outside {s} : s ∉ params → c.stack.lookup s = none ∧ c'.stack.lookup s = none
  inside : (∀ f ∈ declared, .called f ∉ done) → ∀ s, c'.stack.lookup s = c.stack.lookup s

variable {declared params : List String} {done more : List Action} {c c' c₁ c₁' : Context}
  {s : String} {d : Declaration} {xs : List Number} {program : List Expr}

theorem CallStack.lookup_leave_of_shared {stack : CallStack} (h : stack.scoping = .shared) :
    stack.leave.lookup s = none := by
  simp [leave, h, lookup]

namespace Alike

theorem mono (h : Alike declared params done c c') : Alike declared params (done ++ more) c c' :=
  { h with inside := fun hd => h.inside fun f hf hm => hd f hf (List.mem_append_left _ hm) }

theorem value?_eq (h : Alike declared params done c c')
    (hp : (done ++ [Action.read s]).Pairwise (Action.Spares declared params)) :
    c'.value? s = c.value? s := by
  have hl : c'.stack.lookup s = c.stack.lookup s := by
    by_cases hs : s ∈ params
    case pos =>
      refine h.inside (fun f hf hm => ?_) s
      exact (List.pairwise_append.mp hp).2.2 _ hm _ List.mem_cons_self hf hs
    case neg => rw [(h.outside hs).left, (h.outside hs).right]
  rw [Context.value?, Context.value?, hl, h.vars]

theorem checkArity_eq (h : Alike declared params done c c') {f : Function} {name : String}
    {found line : Nat} : c'.checkArity f name found line = c.checkArity f name found line := by
  rw [Context.checkArity, Context.checkArity, h.strictArity]

theorem draw (h : Alike declared params done c c') (draws : Draws) :
    Alike declared params done { c with draws := draws } { c' with draws := draws } :=
  { h with draws := rfl }

theorem enter (h : Alike declared params done c c') :
    Alike declared d.params [] { c with stack := c.stack.enter (d.frame xs) }
      { c' with stack := c'.stack.enter (d.frame xs) } :=
  { h with
    shared  := CallStack.scoping_enter.trans h.shared
    nested  := CallStack.scoping_enter.trans h.nested
    depth   := by simp [h.depth]
    outside := fun hs => by simp [CallStack.lookup_enter, Declaration.frame_get?_of_not_mem hs]
    inside  := fun _ _ => by simp [CallStack.lookup_enter] }

-- Back from the call, the shared frame is gone, and the nested frames are as before.
theorem leave {ps : List String} {before : List Action} (h : Alike declared params done c c')
    (h₁ : Alike declared ps before c₁ c₁') (hn : c₁'.stack.leave = c'.stack) (hs : s ∈ declared) :
    Alike declared params (done ++ [.called s]) { c₁ with stack := c₁.stack.leave }
      { c₁' with stack := c₁'.stack.leave } :=
  { h₁ with
    shared  := CallStack.scoping_leave.trans h₁.shared
    nested  := CallStack.scoping_leave.trans h₁.nested
    depth   := by simp [h₁.depth]
    outside := fun hp => ⟨CallStack.lookup_leave_of_shared h₁.shared, hn ▸ (h.outside hp).right⟩
    inside  := fun hd => absurd (List.mem_append_right _ List.mem_cons_self) (hd s hs) }

end Alike

def Task.actions {α : Type} : Task α → List Action
  | expr e       => e.actions
  | args es      => Expr.argActions es
  | call _ s _ _ => [.called s]

def Task.Known {α : Type} (declared : List String) : Task α → Prop
  | call f s _ _    => f.Known declared s
  | expr _ | args _ => True

theorem Function.Known.plain {f : Function} (h : f.Known declared s) : f.Plain := by
  match f with
  | .builtin _  => trivial
  | .declared _ => exact Declaration.Known.plain h

theorem Runs.leave_eq_of_nested {α : Type} {t : Task α} {log : List Event} {r : Except EvalError α}
    {frame : Frame} (h : Runs t { c with stack := c.stack.enter frame } log r c₁)
    (hn : c.stack.scoping = .nested) : c₁.stack.leave = c.stack :=
  h.leave_eq.trans (CallStack.afterCall_of_nested hn)

-- What follows an action may be left out.
theorem pairwise_of_append {R : Action → Action → Prop} {l₁ l₂ : List Action}
    (h : (done ++ (l₁ ++ l₂)).Pairwise R) : (done ++ l₁).Pairwise R := by
  rw [← List.append_assoc] at h
  exact (List.pairwise_append.mp h).left

-- The induction is on the run with a shared frame. Every step of it is one with nested frames too, since
-- what it reads of the context is the same there.
theorem Runs.alike {α : Type} {t : Task α} {log : List Event} {r : Except EvalError α}
    (h : Runs t c log r c₁) (ht : t.Plain) (hk : t.Known declared)
    (ha : Alike declared params done c c')
    (hp : (done ++ t.actions).Pairwise (Action.Spares declared params)) :
    ∃ log' c₁', Runs t c' log' r c₁' ∧ Alike declared params (done ++ t.actions) c₁ c₁' := by
  induction h generalizing params done c'
  case number => exact ⟨_, _, .number, ha.mono⟩
  case name hv => exact ⟨_, _, .name ((ha.value?_eq hp).trans hv), ha.mono⟩
  case unboundName hv => exact ⟨_, _, .unboundName ((ha.value?_eq hp).trans hv), ha.mono⟩
  case negate hi =>
    cases ht
    case negate he =>
      have ⟨_, _, hr, ha⟩ := hi he trivial ha hp
      exact ⟨_, _, .negate hr, ha⟩
  case leftError hi =>
    cases ht
    case binary hl _ =>
      have ⟨_, _, hr, ha⟩ := hi hl trivial ha (pairwise_of_append hp)
      exact ⟨_, _, .leftError hr, List.append_assoc .. ▸ ha.mono⟩
  case binary h₁ h₂ =>
    cases ht
    case binary hl hr =>
      have ⟨_, _, hr₁, ha⟩ := h₁ hl trivial ha (pairwise_of_append hp)
      have ⟨_, _, hr₂, ha⟩ := h₂ hr trivial ha (List.append_assoc .. ▸ hp)
      exact ⟨_, _, .binary hr₁ hr₂, List.append_assoc .. ▸ ha⟩
  case argsError hi =>
    cases ht
    case call he =>
      have ⟨_, _, hr, ha⟩ := hi he trivial ha (pairwise_of_append hp)
      exact ⟨_, _, .argsError hr, List.append_assoc .. ▸ ha.mono⟩
  case unboundCall hf hi =>
    cases ht
    case call he =>
      have ⟨_, _, hr, ha⟩ := hi he trivial ha (pairwise_of_append hp)
      exact ⟨_, _, .unboundCall hr (ha.functions ▸ hf), List.append_assoc .. ▸ ha.mono⟩
  case call hf _ h₁ h₂ =>
    cases ht
    case call he =>
      have ⟨_, _, hr₁, ha₁⟩ := h₁ he trivial ha (pairwise_of_append hp)
      have hk := ha₁.known hf
      have ⟨_, _, hr₂, ha₂⟩ := h₂ hk.plain hk ha₁ (List.append_assoc .. ▸ hp)
      exact ⟨_, _, .call hr₁ (ha₁.functions ▸ hf) hr₂, List.append_assoc .. ▸ ha₂⟩
  case assignError | assign | declare => cases ht
  case nil => exact ⟨_, _, .nil, ha.mono⟩
  case headError hi =>
    have he := ht _ List.mem_cons_self
    have ⟨_, _, hr, ha⟩ := hi he trivial ha (pairwise_of_append hp)
    exact ⟨_, _, .headError hr, List.append_assoc .. ▸ ha.mono⟩
  case cons h₁ h₂ =>
    have he := List.forall_mem_cons.mp ht
    have ⟨_, _, hr₁, ha⟩ := h₁ he.left trivial ha (pairwise_of_append hp)
    have ⟨_, _, hr₂, ha⟩ := h₂ he.right trivial ha (List.append_assoc .. ▸ hp)
    exact ⟨_, _, .cons hr₁ hr₂, List.append_assoc .. ▸ ha⟩
  case badArity h => exact ⟨_, _, .badArity (ha.checkArity_eq.trans h), ha.mono⟩
  case builtin h =>
    have hr := Runs.builtin (ha.checkArity_eq.trans h)
    rw [ha.draws] at hr
    exact ⟨_, _, hr, (ha.draw _).mono⟩
  case tooDeep h hd =>
    have hr := Runs.tooDeep (ha.checkArity_eq.trans h) (ha.depth ▸ ha.maxCallDepth ▸ hd)
    rw [ha.maxCallDepth] at hr
    exact ⟨_, _, hr, ha.mono⟩
  case enter h hd _ hi =>
    have ⟨_, _, hr, hb⟩ := hi ht trivial ha.enter (Declaration.Known.first hk)
    have hs := hr.leave_eq_of_nested ha.nested
    refine ⟨_, _, .enter (ha.checkArity_eq.trans h) (ha.depth ▸ ha.maxCallDepth ▸ hd) hr, ?_⟩
    exact ha.leave hb hs (Declaration.Known.mem hk)

namespace Alike

theorem define (h : Alike declared params done c c') (name : String) (x : Number) :
    Alike declared params done { c with vars := c.vars.insert name x }
      { c' with vars := c'.vars.insert name x } :=
  { h with vars := by rw [h.vars] }

theorem declare (h : Alike declared params done c c') (hd : d.Known declared s) :
    Alike declared params done { c with functions := c.functions.insert s (.declared d) }
      { c' with functions := c'.functions.insert s (.declared d) } :=
  { h with
    functions := by rw [h.functions]
    known := by
      intro m f hf
      rw [Table.get?_insert] at hf
      split at hf
      case isTrue hm => cases hf; exact hm ▸ hd
      case isFalse   => exact h.known hf }

-- Between statements there are no parameters, and what has been done does not matter.
theorem restart (h : Alike declared [] done c c') : Alike declared [] [] c c' :=
  { h with
    inside := fun _ s => by
      have ⟨hs, hs'⟩ := h.outside (s := s) List.not_mem_nil
      rw [hs, hs'] }

theorem fresh (options : Options) (draws : Draws) :
    Alike declared [] [] (.fresh { options with scoping := .shared } draws)
      (.fresh { options with scoping := .nested } draws) where
  shared       := rfl
  nested       := rfl
  depth        := rfl
  vars         := rfl
  functions    := rfl
  draws        := rfl
  strictArity  := rfl
  maxCallDepth := rfl
  known hf     := by
    have ⟨_, hb⟩ := Context.fresh_functions _ _ hf
    exact hb ▸ trivial
  outside _    := ⟨rfl, rfl⟩
  inside _ _   := rfl

end Alike

-- Two evaluations give the same, and leave contexts that are alike.
def SameOutcome {α : Type} (declared : List String) (x : Eval α) (c c' : Context) : Prop :=
  (x c').1 = (x c).1 ∧ Alike declared [] [] (x c).2 (x c').2

namespace Expr

variable {e : Expr}

theorem Plain.sameOutcome (he : e.Plain) (ha : Alike declared [] [] c c') :
    SameOutcome declared e.eval c c' := by
  have hs : ∀ a b, Action.Spares declared [] a b := by
    intro a b
    unfold Action.Spares
    split <;> simp
  have ⟨_, h⟩ := (Task.expr e).runs c
  have ⟨_, _, hr, ha⟩ := h.alike he trivial ha (List.pairwise_of_forall hs)
  have hr : e.eval c' = _ := hr.run_eq
  rw [SameOutcome, hr]
  exact ⟨rfl, ha.restart⟩

-- What a statement declares is known.
def Declares (declared : List String) : Expr → Prop
  | declare s params body _ => Declaration.Known declared s ⟨params, body⟩
  | _                       => True

theorem Statement.sameOutcome (he : e.Statement) (hd : e.Declares declared)
    (ha : Alike declared [] [] c c') : SameOutcome declared e.eval c c' := by
  cases he
  case value he => exact he.sameOutcome ha
  case assign s e line he =>
    have ⟨hr, ha⟩ := he.sameOutcome ha
    match h : e.eval c with
    | (.ok v, c₁) =>
      rw [h] at hr ha
      have h' : e.eval c' = (.ok v, (e.eval c').2) := Prod.ext hr rfl
      rw [SameOutcome, eval_assign_ok h, eval_assign_ok h']
      exact ⟨rfl, ha.define s v.number⟩
    | (.error err, c₁) =>
      rw [h] at hr ha
      have h' : e.eval c' = (.error err, (e.eval c').2) := Prod.ext hr rfl
      rw [SameOutcome, eval_assign_error h, eval_assign_error h']
      exact ⟨rfl, ha⟩
  case declare =>
    rw [SameOutcome, eval_declare, eval_declare]
    exact ⟨rfl, ha.declare hd⟩

end Expr

theorem evaluate_sameOutcome (hs : ∀ s ∈ program, s.Statement)
    (hk : ∀ s ∈ program, s.Declares declared) (ha : Alike declared [] [] c c') :
    SameOutcome declared (evaluate program) c c' := by
  induction program generalizing c c'
  case nil => exact ⟨rfl, ha⟩
  case cons s rest hi =>
    rw [List.forall_mem_cons] at hs hk
    have ⟨hr, ha⟩ := hs.left.sameOutcome hk.left ha
    match h : s.eval c with
    | (.ok v, c₁) =>
      rw [h] at hr ha
      have h' : s.eval c' = (.ok v, (s.eval c').2) := Prod.ext hr rfl
      have ⟨hr, ha⟩ := hi hs.right hk.right ha
      rw [SameOutcome, evaluate_cons_ok h rfl, evaluate_cons_ok h' rfl, hr]
      exact ⟨rfl, ha⟩
    | (.error err, c₁) =>
      rw [h] at hr ha
      have h' : s.eval c' = (.error err, (s.eval c').2) := Prod.ext hr rfl
      rw [SameOutcome, evaluate_cons_error h, evaluate_cons_error h']
      exact ⟨rfl, ha⟩

theorem declares_of_readsParamsFirst (hs : ∀ s ∈ program, s.Statement)
    (h : ReadsParamsFirst program) : ∀ s ∈ program, s.Declares (declaredNames program) := by
  intro s hm
  cases hs s hm
  case value he   => cases he <;> trivial
  case assign     => trivial
  case declare hb => exact ⟨List.mem_filterMap.mpr ⟨_, hm, rfl⟩, hb, h _ hm⟩

-- Scoping makes no difference to a program that reads its parameters first.
theorem scopings_agree {ts : List Lexeme} (hp : parse ts = .ok program)
    (h : ReadsParamsFirst program) (options : Options) (draws : Draws) :
    let shared := evaluate program (.fresh { options with scoping := .shared } draws)
    let nested := evaluate program (.fresh { options with scoping := .nested } draws)
    shared.1 = nested.1 ∧ shared.2.vars = nested.2.vars ∧
      shared.2.functions = nested.2.functions := by
  intro shared nested
  have hs := parse_statements hp
  have ⟨hr, ha⟩ :=
    evaluate_sameOutcome hs (declares_of_readsParamsFirst hs h) (.fresh options draws)
  exact ⟨hr.symm, ha.vars.symm, ha.functions.symm⟩

-- `f(x) = x * x` and `g(y) = abs(y) + y * f(f(y))` lose the shared frame only where they read no more
-- of it.
theorem scopings_agree_in_nested_calls :
    let ts : List Lexeme := [
      ⟨.name "f", 1⟩, ⟨.mark .openParen, 1⟩, ⟨.name "x", 1⟩, ⟨.mark .closeParen, 1⟩,
      ⟨.mark .equals, 1⟩, ⟨.name "x", 1⟩, ⟨.mark (.operator .mul), 1⟩, ⟨.name "x", 1⟩,
      ⟨.name "g", 2⟩, ⟨.mark .openParen, 2⟩, ⟨.name "y", 2⟩, ⟨.mark .closeParen, 2⟩,
      ⟨.mark .equals, 2⟩, ⟨.name "abs", 2⟩, ⟨.mark .openParen, 2⟩, ⟨.name "y", 2⟩,
      ⟨.mark .closeParen, 2⟩, ⟨.mark (.operator .add), 2⟩, ⟨.name "y", 2⟩,
      ⟨.mark (.operator .mul), 2⟩, ⟨.name "f", 2⟩, ⟨.mark .openParen, 2⟩, ⟨.name "f", 2⟩,
      ⟨.mark .openParen, 2⟩, ⟨.name "y", 2⟩, ⟨.mark .closeParen, 2⟩, ⟨.mark .closeParen, 2⟩,
      ⟨.name "g", 3⟩, ⟨.mark .openParen, 3⟩, ⟨.name "pi", 3⟩, ⟨.mark .closeParen, 3⟩,
      ⟨.mark .finish, 3⟩]
    let program : List Expr := [
      .declare "f" ["x"] (.binary .mul (.name "x" 1) (.name "x" 1) 1) 1,
      .declare "g" ["y"] (.binary .add (.call "abs" [.name "y" 2] 2)
        (.binary .mul (.name "y" 2) (.call "f" [.call "f" [.name "y" 2] 2] 2) 2) 2) 2,
      .call "g" [.name "pi" 3] 3]
    let options : Options := { strictArity := true }
    parse ts = .ok program ∧ ReadsParamsFirst program ∧
      let shared := evaluate program (.fresh { options with scoping := .shared } (.ofSeed 0))
      let nested := evaluate program (.fresh { options with scoping := .nested } (.ofSeed 0))
      shared.1 = nested.1 ∧ shared.2.vars = nested.2.vars ∧
        shared.2.functions = nested.2.functions := by
  intro ts program options
  have hp : parse ts = .ok program := by cbv
  have h : ReadsParamsFirst program := by decide
  exact ⟨hp, h, scopings_agree hp h options (.ofSeed 0)⟩

end Calculator
