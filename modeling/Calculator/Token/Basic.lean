import Calculator.Operator

/-!
# Tokens

A source text is a sequence of tokens, each on its line. Numbers and names carry data, all other
tokens are marks.
-/

namespace Calculator

inductive Mark
  | operator (op : Operator)
  | equals
  | openParen
  | closeParen
  | comma
  | blank  -- white space, which separates tokens and is none of them
  | finish -- the end of the source
deriving DecidableEq

def Mark.text : Mark → String
  | operator op => .singleton op.symbol
  | equals      => "="
  | openParen   => "("
  | closeParen  => ")"
  | comma       => ","
  | blank       => "whitespace"
  | finish      => "(end)"

inductive Token
  | number (value : Number)
  | name (name : String)
  | mark (mark : Mark)
deriving DecidableEq

-- Something that stands on, or goes wrong on, a line of the source. Lines count from one.
structure Located (α : Type) where
  value : α
  line  : Nat
deriving DecidableEq

abbrev Lexeme := Located Token

end Calculator
