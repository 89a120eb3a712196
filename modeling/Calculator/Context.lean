import Calculator.Builtin
import Calculator.Expr.Basic
import Calculator.Options

/-!
# Contexts

Programs are evaluated in a context: the variables and functions defined so far, the calls in
progress, the options and the random numbers to come.
-/

namespace Calculator

-- A function declared by a program.
structure Declaration where
  params : List String
  body   : Expr

inductive Function
  | builtin (b : Builtin)
  | declared (d : Declaration)

namespace Declaration

-- The parameters with the arguments in their places. Parameters without an argument have no value,
-- and arguments without a parameter are dropped.
def bindings : List String → List Number → List (String × Option Number)
  | [],      _       => []
  | p :: ps, []      => (p, none) :: bindings ps []
  | p :: ps, x :: xs => (p, some x) :: bindings ps xs

def frame (d : Declaration) (args : List Number) : Frame := .ofList (bindings d.params args)

end Declaration

def Function.arity : Function → Arity
  | builtin b  => b.arity
  | declared d => .exactly d.params.length

structure Context where
  vars      : Table Number
  functions : Table Function
  stack     : CallStack
  options   : Options
  draws     : Draws

namespace Context

-- The context in which a run starts. It holds the builtin functions and constants alone.
def fresh (options : Options) (draws : Draws) : Context where
  vars := .ofList constants
  functions :=
    let builtins := .ofList <| Builtin.all.map fun b => (b.name, .builtin b)
    if options.legacyTan then builtins.insert "tan" (.builtin (.unary .cos)) else builtins
  stack   := .empty options.scoping
  options := options
  draws   := draws

-- The value of a name: a parameter of the innermost call hides a variable, even if it has no
-- value.
def value? (c : Context) (name : String) : Option Number :=
  match c.stack.lookup name with
  | some binding => binding
  | none         => c.vars.get? name

end Context

end Calculator
