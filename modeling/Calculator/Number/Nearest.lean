import Calculator.Number.Basic

/-!
# The nearest number

`nearest` rounds a rational to the number closest to it, and to the one with an even significand
when two are equally close. The unit of the result is that of the binade of the rational, so its
significand is the rational in units, rounded to a whole number.
-/

namespace Calculator

-- The greatest `n` with `base ^ n ≤ x` for a positive `x`, from a logarithm `log` of whole numbers
-- to that base. The logarithms of numerator and denominator give it up to one.
def floorLog (base : Rat) (log : Nat → Nat) (x : Rat) : Int :=
  let n : Int := log x.num.natAbs - log x.den
  if base ^ n ≤ x then n else n - 1

-- The whole number nearest to `x`, and the even one of two that are equally near.
def roundHalfEven (x : Rat) : Int :=
  let below := x.floor
  if x - below < 1 / 2 ∨ (x - below = 1 / 2 ∧ below % 2 = 0) then below else below + 1

namespace Number

-- Exponent of the unit to which a positive magnitude `x` is rounded.
def unitExponent (x : Rat) : Int := max (floorLog 2 Nat.log2 x - 52) (-1074)

-- Adding the significand to the exponent shifted into its place carries a leading bit, or one
-- gained by rounding up, into the exponent. Results past the greatest finite number are cut at
-- infinity.
def ofMagnitude (x : Rat) : Number :=
  if x = 0 then 0 else
    let unit := unitExponent x
    let significand := (roundHalfEven (x / (2 : Rat) ^ unit)).toNat
    .ofBits <| .ofNat <| min (((unit + 1074).toNat <<< 52) + significand) (2047 <<< 52)

def nearest (x : Rat) : Number := if x < 0 then -ofMagnitude (-x) else ofMagnitude x

end Number

end Calculator
