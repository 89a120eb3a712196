import Calculator.Draws
import Calculator.Number.Extremum
import Calculator.Number.Integral

/-!
# Builtin functions

The functions and constants that every run starts with. Builtin functions never fail: arguments that
are missing are NaN, and those that are too many are ignored.
-/

namespace Calculator

-- How many arguments a function takes.
inductive Arity
  | exactly (n : Nat)
  | any
deriving DecidableEq

-- The builtin functions of one number.
inductive Unary
  | sin
  | cos
  | tan
  | asin
  | acos
  | atan
  | abs
  | round
  | ceil
  | floor
  | log
  | exp
  | sqrt
deriving DecidableEq

namespace Unary

def all : List Unary :=
  [sin, cos, tan, asin, acos, atan, abs, round, ceil, floor, log, exp, sqrt]

def name : Unary → String
  | sin   => "sin"
  | cos   => "cos"
  | tan   => "tan"
  | asin  => "asin"
  | acos  => "acos"
  | atan  => "atan"
  | abs   => "abs"
  | round => "round"
  | ceil  => "ceil"
  | floor => "floor"
  | log   => "log"
  | exp   => "exp"
  | sqrt  => "sqrt"

-- The logarithm is the natural one, and angles are in radians.
def apply : Unary → Number → Number
  | sin   => Float.sin
  | cos   => Float.cos
  | tan   => Float.tan
  | asin  => Float.asin
  | acos  => Float.acos
  | atan  => Float.atan
  | abs   => Float.abs
  | round => Number.round
  | ceil  => Number.ceil
  | floor => Number.floor
  | log   => Float.log
  | exp   => Float.exp
  | sqrt  => Float.sqrt

end Unary

inductive Builtin
  | unary (f : Unary)
  | extremum (e : Extremum)
  | random
deriving DecidableEq

namespace Builtin

def all : List Builtin :=
  Unary.all.map unary ++ [extremum .greatest, extremum .least, random]

def name : Builtin → String
  | unary f            => f.name
  | extremum .greatest => "max"
  | extremum .least    => "min"
  | random             => "random"

def arity : Builtin → Arity
  | unary _    => .exactly 1
  | extremum _ => .any
  | random     => .exactly 0

def ofName? (name : String) : Option Builtin := all.find? (·.name = name)

def argument (args : List Number) (index : Nat) : Number := args.getD index .nan

-- The value at some arguments, and the draws that remain.
def apply (b : Builtin) (args : List Number) (draws : Draws) : Number × Draws :=
  match b with
  | unary f    => (f.apply (argument args 0), draws)
  | extremum e => (e.of args, draws)
  | random     => draws.next

end Builtin

-- The numbers nearest to pi and to the base of the natural logarithm.
def constants : List (String × Number) :=
  [("pi", .ofBits 0x400921fb54442d18), ("e", .ofBits 0x4005bf0a8b145769)]

end Calculator
