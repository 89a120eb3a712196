import Calculator.Number.Nearest

/-!
# Remainder

The remainder of a division truncated towards zero. It is always exact, has the sign of the dividend
and is smaller in magnitude than the divisor.
-/

namespace Calculator.Number

def remainder (x y : Number) : Number :=
  if x.isFinite && y.isFinite && y != 0 then
    let quotient := (x.magnitude / y.magnitude).floor
    (nearest (x.magnitude - y.magnitude * quotient)).withSignOf x
  else if x.isFinite && y.isInf then
    x
  else
    nan

end Calculator.Number
