import Calculator.Token.Basic

/-!
# Errors

What can be wrong with a source text, and what can go wrong when it is evaluated. The first error
ends a run, and its message names the line it was raised on.
-/

namespace Calculator

-- What scanning can stop at. As it recognizes every token, only a number that is too great becomes a
-- fault of a source text.
inductive LexFault
  | unrecognized (token : String)
  | overflow (literal : String)
deriving DecidableEq

inductive SyntaxFault
  | overflow (literal : String)
  | unexpected (mark : Mark)
  | unclosed
  | badParameter
  | badTarget
deriving DecidableEq

inductive EvalFault
  | undefined (name : String)
  | argumentCount (name : String) (expected found : Nat)
  | tooDeep (name : String) (limit : Nat)
deriving DecidableEq

abbrev LexError := Located LexFault

abbrev SyntaxError := Located SyntaxFault

abbrev EvalError := Located EvalFault

inductive Error
  | read (error : SyntaxError)
  | eval (error : EvalError)
deriving DecidableEq

def SyntaxFault.text : SyntaxFault → String
  | overflow literal => "Number " ++ literal ++ " is too large or too small for a 64-bit double."
  | unexpected mark  => "Unexpected token: " ++ mark.text ++ "."
  | unclosed         => "Expected closing parenthesis ')'."
  | badParameter     => "Invalid argument name. Example: f(x) = x * x"
  | badTarget        => "Invalid lvalue."

def LexFault.text : LexFault → String
  | unrecognized token => "Unrecognized token '" ++ token ++ "'."
  | overflow literal   => (SyntaxFault.overflow literal).text

def EvalFault.text : EvalFault → String
  | undefined name => name ++ " is undefined."
  | argumentCount name expected found =>
    "Function '" ++ name ++ "' expects " ++ toString expected ++ " argument(s), but found " ++
      toString found ++ "."
  | tooDeep name limit =>
    "Call to '" ++ name ++ "' exceeds the maximum call depth of " ++ toString limit ++ "."

namespace Error

def line : Error → Nat
  | read error => error.line
  | eval error => error.line

def text : Error → String
  | read error => error.value.text
  | eval error => error.value.text

def message (e : Error) : String := "Error on line " ++ toString e.line ++ ": " ++ e.text

end Error

end Calculator
