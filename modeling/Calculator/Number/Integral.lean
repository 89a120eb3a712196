import Calculator.Number.Nearest

/-!
# Whole numbers around a number

`floor` and `ceil` are the neighbouring whole numbers and keep the sign, also that of a zero.
`round` takes the nearest whole number, a half upwards: `round 2.5` is 3 and `round (-2.5)` is -2.
-/

namespace Calculator.Number

variable (x : Number)

def floor : Number := if x.isFinite then (nearest (toRat x).floor).withSignOf x else x

def ceil : Number := if x.isFinite then (nearest (toRat x).ceil).withSignOf x else x

def round : Number :=
  let below := floor x
  let rounded := if x - below ≥ 0.5 then below + 1 else below
  -- What rounds up to zero from below is the negative zero.
  if rounded == 0 then withSignOf rounded x else rounded

end Calculator.Number
