import Calculator.Context
import Calculator.Error
import Calculator.Number.Text

/-!
# Evaluation

Evaluating an expression gives a value, or none for an assignment or a declaration, and changes the
context. It stops at the first error; what has changed by then stays.

Declared functions may call each other in circles, so evaluation is bounded by the number of further
calls that may be opened inside each other. It starts with the depth that the options leave, every
call that is opened takes one off for its body, and a call that finds none left is too deep.
-/

namespace Calculator

abbrev Eval := ExceptT EvalError (StateM Context)

-- What an expression evaluates to. Assignments and declarations have no value.
abbrev Value := Option Number

-- As an operand, an expression without a value counts as NaN.
def Value.number (v : Value) : Number := v.getD .nan

-- How a call of a declared function is carried out: from the name it is called by, its
-- declaration, the arguments and the line.
abbrev Invoke := String → Declaration → List Number → Nat → Eval Number

-- Fails if a function called `name` does not take `found` arguments.
def Arity.check (name : String) (found line : Nat) : Arity → Except EvalError Unit
  | exactly expected =>
    if found = expected then .ok () else .error ⟨.argumentCount name expected found, line⟩
  | any => .ok ()

namespace Eval

def value (name : String) (line : Nat) : Eval Number := do
  match (← get).value? name with
  | some value => return value
  | none       => throw ⟨.undefined name, line⟩

def function (name : String) (line : Nat) : Eval Function := do
  match (← get).functions.get? name with
  | some f => return f
  | none   => throw ⟨.undefined name, line⟩

def define (name : String) (value : Number) : Eval Value := do
  modify fun c => { c with vars := c.vars.insert name value }
  return none

def declare (name : String) (d : Declaration) : Eval Value := do
  modify fun c => { c with functions := c.functions.insert name (.declared d) }
  return none

-- Only with strict arity are arguments counted.
def checkArity (arity : Arity) (name : String) (found line : Nat) : Eval Unit := fun c =>
  (if c.options.strictArity then arity.check name found line else .ok (), c)

-- The value of a builtin function, which may use up a random number.
def builtin (b : Builtin) (args : List Number) : Eval Number :=
  modifyGet fun c =>
    let (value, draws) := b.apply args c.draws
    (value, { c with draws := draws })

-- Evaluates with a frame entered, which is left again in any case.
def within {α : Type} (frame : Frame) (x : Eval α) : Eval α := fun c =>
  let (result, c) := x { c with stack := c.stack.enter frame }
  (result, { c with stack := c.stack.leave })

-- What each of these does to a context.

section

variable {α β : Type} {x : Eval α} {c : Context} {name : String} {line : Nat}

@[simp]
theorem pure_apply {a : α} : (pure a : Eval α) c = (.ok a, c) := rfl

@[simp]
theorem throw_apply {e : EvalError} : (throw e : Eval α) c = (.error e, c) := rfl

@[simp]
theorem get_apply : (get : Eval Context) c = (.ok c, c) := rfl

@[simp]
theorem bind_apply {f : α → Eval β} :
    (x >>= f) c = match x c with
      | (.ok a, c)    => f a c
      | (.error e, c) => (.error e, c) := by
  simp only [bind, ExceptT.bind, ExceptT.mk, StateT.bind]
  rcases x c with ⟨_ | _, _⟩ <;> rfl

@[simp]
theorem map_apply {f : α → β} : (f <$> x) c = ((x c).1.map f, (x c).2) := by
  rw [map_eq_pure_bind, bind_apply]
  rcases x c with ⟨_ | _, _⟩ <;> rfl

theorem value_apply :
    value name line c = ((c.value? name).elim (.error ⟨.undefined name, line⟩) .ok, c) := by
  cases h : c.value? name <;> simp [value, h]

theorem function_apply :
    function name line c =
      ((c.functions.get? name).elim (.error ⟨.undefined name, line⟩) .ok, c) := by
  cases h : c.functions.get? name <;> simp [function, h]

theorem define_apply {value : Number} :
    define name value c = (.ok none, { c with vars := c.vars.insert name value }) := rfl

theorem declare_apply {d : Declaration} :
    declare name d c = (.ok none, { c with functions := c.functions.insert name (.declared d) }) :=
  rfl

theorem builtin_apply {b : Builtin} {args : List Number} :
    builtin b args c =
      (.ok (b.apply args c.draws).1, { c with draws := (b.apply args c.draws).2 }) := rfl

theorem within_apply {frame : Frame} :
    within frame x c =
      let inside := x { c with stack := c.stack.enter frame }
      (inside.1, { inside.2 with stack := inside.2.stack.leave }) := rfl

end

end Eval

-- Calls a function by a name it is known by.
def Function.call (invoke : Invoke) (f : Function) (name : String) (args : List Number)
    (line : Nat) : Eval Number := do
  Eval.checkArity f.arity name args.length line
  match f with
  | builtin b  => Eval.builtin b args
  | declared d => invoke name d args line

namespace Expr

mutual

-- Evaluates an expression, where calls of declared functions are carried out by `invoke`.
def evalWith (invoke : Invoke) : Expr → Eval Value
  | number x _  => return x
  | name s line => some <$> Eval.value s line
  | negate operand _ => do
    let x ← operand.evalWith invoke
    return some (-x.number)
  | binary op left right _ => do
    let x ← left.evalWith invoke
    let y ← right.evalWith invoke
    return op.apply x.number y.number
  | call s args line => do
    let values ← evalArgs invoke args
    let f ← Eval.function s line
    some <$> f.call invoke s values line
  | assign target value _ => do
    let x ← value.evalWith invoke
    Eval.define target x.number
  | declare f params body _ => Eval.declare f ⟨params, body⟩

-- Arguments are evaluated from left to right.
def evalArgs (invoke : Invoke) : List Expr → Eval (List Number)
  | [] => return []
  | arg :: args => do
    let x ← arg.evalWith invoke
    return x.number :: (← evalArgs invoke args)

end

end Expr

-- Carries out calls when `remaining` of them may be opened inside each other.
def Eval.invoke (remaining : Nat) : Invoke := fun name d args line =>
  match remaining with
  | 0 => do throw ⟨.tooDeep name (← get).options.maxCallDepth, line⟩
  | remaining + 1 => within (d.frame args) do
    let x ← d.body.evalWith (invoke remaining)
    return x.number

-- How many calls may still be opened inside each other.
def Context.remainingDepth (c : Context) : Nat := c.options.maxCallDepth - c.stack.depth

def Expr.eval (e : Expr) : Eval Value := do
  e.evalWith (Eval.invoke (← get).remainingDepth)

-- Evaluates statements in order, and writes the texts of their values one after the other.
def evaluate : List Expr → Eval String
  | [] => return ""
  | statement :: rest => do
    let value ← statement.eval
    let output ← evaluate rest
    return (value.map Number.text).getD "" ++ output

end Calculator
