import Calculator.Context

/-!
# Actions

What an expression does when it is evaluated and no error stops it: it reads names, and completes calls.
The operands of an operator act from left to right, and the arguments of a call before the call itself.
-/

namespace Calculator

inductive Action
  | read (name : String)
  | called (name : String)
deriving DecidableEq

namespace Expr

mutual

-- A declaration does nothing with the body of its function.
def actions : Expr → List Action
  | number _ _            => []
  | name s _              => [.read s]
  | negate e _            => e.actions
  | binary _ left right _ => left.actions ++ right.actions
  | call s args _         => argActions args ++ [.called s]
  | assign _ e _          => e.actions
  | declare _ _ _ _       => []

def argActions : List Expr → List Action
  | []        => []
  | e :: rest => e.actions ++ argActions rest

end

variable {g : String} {es : List Expr} {action : Action}

theorem argActions_eq : argActions es = es.flatMap actions := by
  induction es
  case nil     => rfl
  case cons hi => rw [argActions, hi, List.flatMap_cons]

-- The expression contains a call of `g`, be it in an argument of another call.
def Calls (e : Expr) (g : String) : Prop := .called g ∈ e.actions

theorem calls_number {x : Number} {line : Nat} : ¬(number x line).Calls g := by
  simp [Calls, actions]

theorem calls_name {s : String} {line : Nat} : ¬(name s line).Calls g := by
  simp [Calls, actions]

theorem calls_negate {e : Expr} {line : Nat} : (negate e line).Calls g ↔ e.Calls g := by
  simp [Calls, actions]

theorem calls_binary {op : Operator} {left right : Expr} {line : Nat} :
    (binary op left right line).Calls g ↔ left.Calls g ∨ right.Calls g := by
  simp [Calls, actions]

theorem calls_call {s : String} {line : Nat} :
    (call s es line).Calls g ↔ (∃ e ∈ es, e.Calls g) ∨ g = s := by
  simp [Calls, actions, argActions_eq]

end Expr

end Calculator
