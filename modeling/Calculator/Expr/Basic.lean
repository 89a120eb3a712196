import Calculator.Token.Basic

/-!
# Expressions

The trees that a program consists of. Every node knows the line of the token that introduced it: the
operator, the name called, the sign of a negation, the `=` of an assignment or declaration.
-/

namespace Calculator

inductive Expr
  | number (value : Number) (line : Nat)
  | name (name : String) (line : Nat)
  | negate (operand : Expr) (line : Nat)
  | binary (op : Operator) (left right : Expr) (line : Nat)
  | call (name : String) (args : List Expr) (line : Nat)
  | assign (name : String) (value : Expr) (line : Nat)
  | declare (name : String) (params : List String) (body : Expr) (line : Nat)

namespace Expr

def line : Expr → Nat
  | number _ line | name _ line | negate _ line | binary _ _ _ line | call _ _ line
  | assign _ _ line | declare _ _ _ line => line

-- The name that an expression consists of, if it consists of just a name.
def name? : Expr → Option String
  | name s _ => some s
  | _        => none

end Expr

end Calculator
