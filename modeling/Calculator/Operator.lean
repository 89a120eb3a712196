import Calculator.Number.Remainder

/-!
# Operators

The six binary operators and what they compute. Arithmetic follows IEEE 754, so a division by zero
has a value too.
-/

namespace Calculator

inductive Operator
  | add
  | sub
  | mul
  | div
  | rem
  | pow
deriving DecidableEq

-- A power is NaN if its exponent is NaN, whatever the base, and so are the infinite powers of 1
-- and -1.
def Number.power (base exponent : Number) : Number :=
  if exponent.isNaN || (base.abs == 1 && exponent.isInf) then nan else Float.pow base exponent

namespace Operator

def symbol : Operator → Char
  | add => '+'
  | sub => '-'
  | mul => '*'
  | div => '/'
  | rem => '%'
  | pow => '^'

def apply : Operator → Number → Number → Number
  | add => (· + ·)
  | sub => (· - ·)
  | mul => (· * ·)
  | div => (· / ·)
  | rem => Number.remainder
  | pow => Number.power

end Operator

end Calculator
