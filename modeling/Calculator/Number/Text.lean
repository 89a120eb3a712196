import Calculator.Number.Decimal

/-!
# Text of a number

The canonical text of a number has the digits of its shortest decimal. The point stands among them
or next to them (`14`, `0.1`, `1200`) while the number is at least 1e-6 and below 1e21; beyond that
there is one digit before the point and a signed exponent (`1e+21`, `1.5e-7`). Both zeros read `0`.
-/

namespace Calculator

namespace Decimal

-- The digits without a point, after `position` places a point where there are digits on both sides
-- of it, and zeros up to the point where there are none.
def positional (digits : List Char) (position : Int) : List Char :=
  if digits.length ≤ position then
    digits ++ List.replicate (position - digits.length).toNat '0'
  else if 0 < position then
    digits.take position.toNat ++ '.' :: digits.drop position.toNat
  else
    '0' :: '.' :: List.replicate (-position).toNat '0' ++ digits

-- One digit before the point, the rest after it, and the exponent with its sign.
def scientific : List Char → Int → List Char
  | [],          _        => []
  | digit :: [], exponent => digit :: exponentText exponent
  | digit :: ds, exponent => digit :: '.' :: ds ++ exponentText exponent
where
  exponentText (exponent : Int) : List Char :=
    'e' :: (if exponent < 0 then '-' else '+') :: Nat.toDigits 10 exponent.natAbs

end Decimal

namespace Number

-- The bounds of the magnitudes that are written without an exponent.

def minPositional : Number := nearest (Decimal.mk 1 (-6)).toRat

def maxPositional : Number := nearest (Decimal.mk 1 21).toRat

-- The text of a finite positive number.
def magnitudeText (x : Number) : List Char :=
  let decimal := Decimal.shortest x
  let digits := Nat.toDigits 10 decimal.digits
  let position := decimal.exponent + digits.length
  if minPositional ≤ x ∧ x < maxPositional then Decimal.positional digits position
  else Decimal.scientific digits (position - 1)

def text (x : Number) : String :=
  if x.isNaN then "NaN"
  else if x.isInf then (if x.isNegative then "-Infinity" else "Infinity")
  else if x == 0 then "0"
  else .ofList <| if x.isNegative then '-' :: magnitudeText x.abs else magnitudeText x.abs

end Number

end Calculator
