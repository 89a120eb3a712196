import Calculator.Error
import Calculator.Expr.Basic

/-!
# Parsing

An expression is parsed by binding powers. A token binds the expression to its left with its left
power; the parser at a power `p` extends an expression as long as the next token binds it more
tightly than `p`. An operator that groups to the left parses its right operand at its own left
power; `^` groups to the right and uses one less. Negation binds its operand more tightly than any
operator. The `=` binds least, and neither its right side nor a group nor an argument can hold
another one.

Each function takes tokens off the front of a list, and its result holds a proof of that. Parsing
ends as every call gets fewer tokens, or equally many and then a function that comes earlier in the
order `expression`, `someArguments`, `arguments`. Beyond the last token stands `finish` on line 0.
-/

namespace Calculator

def Operator.leftPower : Operator → Nat
  | pow             => 6
  | mul | div | rem => 4
  | add | sub       => 3

def Operator.rightPower : Operator → Nat
  | pow             => 5
  | mul | div | rem => 4
  | add | sub       => 3

-- Tokens that cannot extend an expression have power 0.
def Token.leftPower : Token → Nat
  | mark (.operator op) => op.leftPower
  | mark .equals        => 1
  | _                   => 0

-- The power at which groups, arguments and the right side of `=` are parsed.
def innerPower : Nat := 2

def negationPower : Nat := 7

namespace Parse

-- What has been parsed off the front of a list, and the tokens left over, fewer than `bound`.
structure Step (α : Type) (bound : Nat) where
  result  : α
  rest    : List Lexeme
  shorter : rest.length < bound

abbrev Parsed (α : Type) (bound : Nat) := Except SyntaxError (Step α bound)

variable {α : Type}

def Step.widen {n m : Nat} (s : Step α n) (h : n ≤ m := by omega) : Step α m :=
  { s with shorter := Nat.lt_of_lt_of_le s.shorter h }

-- Takes the closing parenthesis off `ts`. If there is none, the line of what was opened is to
-- blame.
def closing (opened : Nat) (inner : α) : (ts : List Lexeme) → Parsed α ts.length
  | ⟨.mark .closeParen, _⟩ :: ts => .ok ⟨inner, ts, Nat.lt_succ_self _⟩
  | _                            => .error ⟨.unclosed, opened⟩

-- What an `=` after `target` makes of its right side: a variable or a function gets it.
def definition (target : Expr) (line : Nat) : Except SyntaxError (Expr → Expr) :=
  match target with
  | .name name _ => .ok (.assign name · line)
  | .call name args _ =>
    match args.mapM Expr.name? with
    | some params => .ok (.declare name params · line)
    | none        => .error ⟨.badParameter, line⟩
  | _ => .error ⟨.badTarget, line⟩

mutual

-- The longest expression at the front of `ts` whose operators bind more tightly than `power`.
def expression (power : Nat) : (ts : List Lexeme) → Parsed Expr ts.length
  | []      => .error ⟨.unexpected .finish, 0⟩
  | t :: ts => do
    let ⟨left, ts₁, h⟩ ← operand t ts
    return (← extend power left ts₁).widen h
termination_by ts => 3 * ts.length

-- The expression that `t` begins, without the operators that follow it.
def operand (t : Lexeme) (ts : List Lexeme) : Parsed Expr (ts.length + 1) :=
  match t.value with
  | .number value => .ok ⟨.number value t.line, ts, Nat.lt_succ_self _⟩
  | .name name =>
    match ts with
    | ⟨.mark .openParen, _⟩ :: ts => do
      let ⟨args, rest, h⟩ ← arguments t.line ts
      return ⟨.call name args t.line, rest, by simp; omega⟩
    | ts => .ok ⟨.name name t.line, ts, Nat.lt_succ_self _⟩
  | .mark .openParen => do
    let ⟨inner, ts₁, h⟩ ← expression innerPower ts
    return (← closing t.line inner ts₁).widen
  | .mark (.operator .sub) => do
    let ⟨inner, rest, h⟩ ← expression negationPower ts
    return ⟨.negate inner t.line, rest, by omega⟩
  | .mark mark => .error ⟨.unexpected mark, t.line⟩
termination_by 3 * ts.length + 1

-- Extends `left` by the operators at the front of `ts` that bind it more tightly than `power`.
def extend (power : Nat) (left : Expr) : (ts : List Lexeme) → Parsed Expr (ts.length + 1)
  | []      => .ok ⟨left, [], Nat.zero_lt_one⟩
  | t :: ts =>
    if power < t.value.leftPower then
      match t.value with
      | .mark (.operator op) => do
        let ⟨right, ts₁, h⟩ ← expression op.rightPower ts
        return (← extend power (.binary op left right t.line) ts₁).widen (by simp; omega)
      | .mark .equals => do
        let define ← definition left t.line
        let ⟨right, ts₁, h⟩ ← expression innerPower ts
        return (← extend power (define right) ts₁).widen (by simp; omega)
      | _ => .ok ⟨left, t :: ts, Nat.lt_succ_self _⟩
    else
      .ok ⟨left, t :: ts, Nat.lt_succ_self _⟩
termination_by ts => 3 * ts.length + 1

-- The arguments of a call on line `opened`, whose open parenthesis has been taken off.
def arguments (opened : Nat) : (ts : List Lexeme) → Parsed (List Expr) ts.length
  | ⟨.mark .closeParen, _⟩ :: ts => .ok ⟨[], ts, Nat.lt_succ_self _⟩
  | ts                           => someArguments opened ts
termination_by ts => 3 * ts.length + 2

-- One argument or more, separated by commas, and the closing parenthesis.
def someArguments (opened : Nat) (ts : List Lexeme) : Parsed (List Expr) ts.length := do
  let ⟨arg, ts₁, h⟩ ← expression innerPower ts
  match ts₁, h with
  | ⟨.mark .comma, _⟩ :: ts₂, h => do
    have h₂ : ts₂.length < ts.length := Nat.lt_of_succ_lt h
    let ⟨args, rest, _⟩ ← someArguments opened ts₂
    return ⟨arg :: args, rest, by omega⟩
  | ts₁, h => return (← closing opened [arg] ts₁).widen
termination_by 3 * ts.length + 1

end

end Parse

-- The statements of a program follow each other without a separator, up to the first `finish`.
def parse : List Lexeme → Except SyntaxError (List Expr)
  | []                      => .ok []
  | ⟨.mark .finish, _⟩ :: _ => .ok []
  | t :: ts => do
    let ⟨statement, rest, _⟩ ← Parse.expression 0 (t :: ts)
    return statement :: (← parse rest)
termination_by ts => ts.length
decreasing_by assumption

end Calculator
