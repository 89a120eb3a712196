import Calculator.Number.Basic

/-!
# Least and greatest number

The bounds of a list of numbers, with -0 ordered below 0. A NaN among the numbers makes the result
NaN, and the bounds of no numbers are the two infinities.
-/

namespace Calculator

inductive Extremum
  | least
  | greatest
deriving DecidableEq

namespace Extremum

-- Numbers that compare equal differ at most in the sign of zero.
def pick : Extremum → Number → Number → Number
  | least,    x, y => if x == y then (if x.isNegative then x else y) else if x < y then x else y
  | greatest, x, y => if x == y then (if x.isNegative then y else x) else if x < y then y else x

def identity : Extremum → Number
  | least    => .infinity
  | greatest => -.infinity

def of (e : Extremum) (xs : List Number) : Number :=
  if xs.any (·.isNaN) then .nan else xs.foldl e.pick e.identity

end Extremum

end Calculator
