import Calculator.Proofs.Eval.Spelling

/-!
# Aliases

A builtin function can be known by a second name. To call it by that name is to call it by the first one:
if the calls in a program, and in the bodies of its functions, are made by the first name instead, the
program evaluates alike where the second name means something else. The two can be told apart only by the
error about the number of arguments, which has the name that is called. An option makes `tan` another name
of `cos`.
-/

namespace Calculator

namespace Expr

mutual

-- The names of the functions that an expression calls are exchanged, in the bodies of functions too, but no
-- name that it reads, assigns or declares.
def renameCalls (r : String → String) : Expr → Expr
  | number x line              => number x line
  | name s line                => name s line
  | negate e line              => negate (e.renameCalls r) line
  | binary op left right line  => binary op (left.renameCalls r) (right.renameCalls r) line
  | call s args line           => call (r s) (renameArgCalls r args) line
  | assign s e line            => assign s (e.renameCalls r) line
  | declare s params body line => declare s params (body.renameCalls r) line

def renameArgCalls (r : String → String) : List Expr → List Expr
  | []      => []
  | e :: es => e.renameCalls r :: renameArgCalls r es

end

end Expr

section

variable (r : String → String)

def Function.renameCalls : Function → Function
  | builtin b  => builtin b
  | declared d => declared ⟨d.params, d.body.renameCalls r⟩

-- What is called has its new name in the error about the number of its arguments.
def EvalError.renameMismatch : EvalError → EvalError
  | ⟨.argumentCount s expected found, line⟩ => ⟨.argumentCount (r s) expected found, line⟩
  | e                                       => e

-- What is called by the name `s` in the first context is called by the name `r s` in the second one. Only
-- builtin functions have different names in the two.
structure Aliases (c c' : Context) : Prop where
  vars        : c'.vars = c.vars
  stack       : c'.stack = c.stack
  draws       : c'.draws = c.draws
  strict      : c'.options.strictArity = c.options.strictArity
  limit       : c'.options.maxCallDepth = c.options.maxCallDepth
  functions s : c'.functions.get? (r s) = (c.functions.get? s).map (Function.renameCalls r)
  moved s     : r s ≠ s → ∃ b, c.functions.get? s = some (.builtin b)
  plain       : c.functions.All Function.Plain

def Task.renameCalls {α : Type} : Task α → Task α
  | expr e           => expr (e.renameCalls r)
  | args es          => args (Expr.renameArgCalls r es)
  | call f s xs line => call (f.renameCalls r) (r s) xs line

end

variable {r : String → String} {α : Type} {t : Task α} {c c' c₁ : Context} {log : List Event}
  {res : Except EvalError α} {f : Function} {s : String} {found line : Nat} {e : Expr}
  {program : List Expr}

theorem Function.arity_renameCalls : (f.renameCalls r).arity = f.arity := by
  cases f <;> rfl

theorem Arity.check_renameMismatch {arity : Arity} :
    arity.check (r s) found line = (arity.check s found line).mapError (EvalError.renameMismatch r) := by
  cases arity
  case exactly n => by_cases h : found = n <;> simp [check, h, Except.mapError, EvalError.renameMismatch]
  case any       => rfl

namespace Aliases

theorem value (hc : Aliases r c c') : c'.value? s = c.value? s := by
  rw [Context.value?, Context.value?, hc.stack, hc.vars]

theorem checkArity (hc : Aliases r c c') {checked : Except EvalError Unit}
    (h : c.checkArity f s found line = checked) :
    c'.checkArity (f.renameCalls r) (r s) found line = checked.mapError (EvalError.renameMismatch r) := by
  subst h
  rw [Context.checkArity, Context.checkArity, hc.strict, Function.arity_renameCalls]
  split
  case isTrue  => exact Arity.check_renameMismatch
  case isFalse => rfl

theorem function (hc : Aliases r c c') {f : Option Function} (h : c.functions.get? s = f) :
    c'.functions.get? (r s) = f.map (Function.renameCalls r) := by
  subst h
  exact hc.functions s

theorem stays (hc : Aliases r c c') (h : ∀ b, c.functions.get? s ≠ some (.builtin b)) : r s = s := by
  by_contra hs
  have ⟨b, hb⟩ := hc.moved s hs
  exact h b hb

theorem draw (hc : Aliases r c c') (draws : Draws) :
    Aliases r { c with draws := draws } { c' with draws := draws } :=
  { hc with draws := rfl }

theorem assign (hc : Aliases r c c') (s : String) (x : Number) :
    Aliases r { c with vars := c.vars.insert s x } { c' with vars := c'.vars.insert s x } :=
  { hc with vars := by rw [hc.vars] }

theorem enter (hc : Aliases r c c') (frame : Frame) :
    Aliases r { c with stack := c.stack.enter frame } { c' with stack := c'.stack.enter frame } :=
  { hc with stack := by rw [hc.stack] }

theorem leave (hc : Aliases r c c') :
    Aliases r { c with stack := c.stack.leave } { c' with stack := c'.stack.leave } :=
  { hc with stack := by rw [hc.stack] }

-- A function can be declared by a name that no other name stands for.
theorem declare (hc : Aliases r c c') {d : Declaration} (hd : d.body.Plain) (hs : ∀ x, r x = s ↔ x = s) :
    Aliases r { c with functions := c.functions.insert s (.declared d) }
      { c' with functions := c'.functions.insert s (.declared ⟨d.params, d.body.renameCalls r⟩) } :=
  { hc with
    functions := fun x => by
      simp only [Table.get?_insert, hs]
      split
      case isTrue  => rfl
      case isFalse => exact hc.functions x
    moved := fun x hx => by
      have hn : x ≠ s := fun he => hx (he ▸ (hs s).mpr rfl)
      rw [Table.get?_insert_of_ne hn]
      exact hc.moved x hx
    plain := hc.plain.insert hd }

end Aliases

end Calculator
