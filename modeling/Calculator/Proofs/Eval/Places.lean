import Calculator.Proofs.Eval.Session
import Calculator.Proofs.Parse.Places

/-!
# Places in an evaluation

The bodies of functions take their lines with them into the context. So an error in a body is raised on
the line where the body says it, however much later the function is called.
-/

namespace Calculator

inductive EvalFault.Placed (ts : List Lexeme) (options : Options) (line : Nat) : EvalFault → Prop
  | undefined {s} : ⟨.name s, line⟩ ∈ ts → Placed ts options line (.undefined s)
  | argumentCount {s expected found} :
    CalledOn ts s line → options.strictArity = true → expected ≠ found →
    Placed ts options line (.argumentCount s expected found)
  | tooDeep {s} :
    CalledOn ts s line → Placed ts options line (.tooDeep s options.maxCallDepth)

def Function.Placed (ts : List Lexeme) : Function → Prop
  | builtin _  => True
  | declared d => d.body.Placed ts

def Task.Placed {α : Type} (ts : List Lexeme) : Task α → Prop
  | expr e          => e.Placed ts
  | args es         => ∀ e ∈ es, e.Placed ts
  | call f s _ line => f.Placed ts ∧ CalledOn ts s line

structure Context.Placed (ts : List Lexeme) (options : Options) (c : Context) : Prop where
  options   : c.options = options
  functions : c.functions.All (Function.Placed ts)

-- A result that is an error is in its place.
def InPlace {α : Type} (ts : List Lexeme) (options : Options) (r : Except EvalError α) : Prop :=
  ∀ e, r = .error e → e.value.Placed ts options e.line

variable {α β : Type} {ts : List Lexeme} {options : Options} {t : Task α} {c c' : Context}
  {log : List Event} {r : Except EvalError α} {f : Function} {s : String} {found line : Nat}
  {program : List Expr} {draws : Draws} {e : EvalError}

theorem CalledOn.mem (h : CalledOn ts s line) : ⟨.name s, line⟩ ∈ ts :=
  have ⟨_, h⟩ := h
  h.mem List.mem_cons_self

theorem InPlace.intro (h : e.value.Placed ts options e.line) :
    InPlace ts options (.error e : Except EvalError α) := fun _ he => by
  cases he
  exact h

theorem InPlace.map (h : InPlace ts options r) (f : α → β) : InPlace ts options (r.map f) := by
  cases r
  case error e => exact .intro (h e rfl)
  case ok      => exact nofun

theorem InPlace.error (h : InPlace ts options (.error e : Except EvalError α)) :
    InPlace ts options (.error e : Except EvalError β) := .intro (h e rfl)

theorem checkArity_placed (h : c.checkArity f s found line = .error e) (hc : c.options = options)
    (hs : CalledOn ts s line) : e.value.Placed ts options e.line := by
  unfold Context.checkArity Arity.check at h
  rw [hc] at h
  split at h
  case isFalse   => cases h
  case isTrue ho =>
    split at h
    case _ =>
      split at h
      case isTrue     => cases h
      case isFalse hn => cases h; exact .argumentCount hs ho (Ne.symm hn)
    case _ => cases h

theorem Runs.placed (h : Runs t c log r c') (ht : t.Placed ts) (hc : c.Placed ts options) :
    c'.Placed ts options ∧ InPlace ts options r := by
  induction h
  case number | name | nil | builtin => exact ⟨⟨hc.options, hc.functions⟩, nofun⟩
  case unboundName =>
    cases ht
    case name hs => exact ⟨hc, .intro (.undefined hs)⟩
  case negate hi =>
    cases ht
    case negate he => exact (hi he hc).imp_right fun h => h.map _
  case leftError hi =>
    cases ht
    case binary hl _ => exact hi hl hc
  case binary h₁ h₂ =>
    cases ht
    case binary hl hr =>
      exact (h₂ hr (h₁ hl hc).left).imp_right fun h => h.map _
  case argsError hi =>
    cases ht
    case call ha _ => exact (hi ha hc).imp_right InPlace.error
  case unboundCall hi =>
    cases ht
    case call ha hs =>
      exact ⟨(hi ha hc).left, .intro (.undefined hs.mem)⟩
  case call hf _ h₁ h₂ =>
    cases ht
    case call ha hs =>
      have hc₁ := (h₁ ha hc).left
      exact (h₂ ⟨hc₁.functions _ _ hf, hs⟩ hc₁).imp_right fun h => h.map _
  case assignError hi =>
    cases ht
    case assign he => exact hi he hc
  case assign hi =>
    cases ht
    case assign he =>
      have hc₁ := (hi he hc).left
      exact ⟨⟨hc₁.options, hc₁.functions⟩, nofun⟩
  case declare =>
    cases ht
    case declare hb => exact ⟨⟨hc.options, hc.functions.insert hb⟩, nofun⟩
  case headError hi => exact (hi (ht _ List.mem_cons_self) hc).imp_right InPlace.error
  case cons h₁ h₂ =>
    have ⟨he, hes⟩ := List.forall_mem_cons.mp ht
    exact (h₂ hes (h₁ he hc).left).imp_right fun h => h.map _
  case badArity ha => exact ⟨hc, .intro (checkArity_placed ha hc.options ht.right)⟩
  case tooDeep =>
    rw [hc.options]
    exact ⟨hc, .intro (.tooDeep ht.right)⟩
  case enter hi =>
    have ⟨hc₁, hr⟩ := hi ht.left ⟨hc.options, hc.functions⟩
    exact ⟨⟨hc₁.options, hc₁.functions⟩, hr.map _⟩

theorem evaluate_placed (hp : ∀ s ∈ program, s.Placed ts) (hc : c.Placed ts options) :
    InPlace ts options (evaluate program c).1 := by
  induction program generalizing c
  case nil => exact nofun
  case cons s rest hi =>
    rw [List.forall_mem_cons] at hp
    have ⟨_, hs⟩ := (Task.expr s).runs c
    have ⟨hc₁, hr⟩ := hs.placed hp.left hc
    rw [← Expr.eval_eq_run] at hc₁ hr
    match h : s.eval c with
    | (.ok v, c₁) =>
      rw [h] at hc₁
      rw [evaluate_cons_ok h rfl]
      exact (hi hp.right hc₁).map _
    | (.error e, c₁) =>
      rw [h] at hr
      rw [evaluate_cons_error h]
      exact hr.error

theorem Context.fresh_placed : (fresh options draws).Placed ts options where
  options   := rfl
  functions := by
    intro name f hf
    have ⟨_, hb⟩ := fresh_functions name f hf
    exact hb ▸ trivial

end Calculator
