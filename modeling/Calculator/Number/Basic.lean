/-!
# Numbers

The numbers of the calculator are the binary64 numbers of IEEE 754. A number is read off its 64
bits: one bit of sign, eleven of exponent and 52 of fraction. A finite number stands for the
rational `± significand * 2 ^ exponent`, which `toRat` gives exactly. Everything that has to be
exact about numbers (rounding, remainders, reading and writing decimals) is computed on that
rational.
-/

namespace Calculator

abbrev Number := Float

namespace Number

def nan : Number := .ofBits 0x7ff8000000000000

def infinity : Number := .ofBits 0x7ff0000000000000

variable (x : Number)

-- The sign bit. It also tells the two zeros apart.
def isNegative : Bool := x.toBits.toNat >>> 63 == 1

-- The eleven bits that hold the exponent. They are 0 for a subnormal number and for zero, and 2047
-- for an infinity and for NaN.
def exponentField : Nat := (x.toBits.toNat >>> 52) % 2048

def fractionField : Nat := x.toBits.toNat % (1 <<< 52)

-- Whole number of units in a finite number. Normal numbers have a leading bit that is not
-- stored.
def significand : Nat :=
  if x.exponentField = 0 then x.fractionField else (1 <<< 52) + x.fractionField

-- Exponent of the unit of a finite number. Subnormal numbers share that of the smallest normal
-- ones.
def exponent : Int := max x.exponentField 1 - 1075

def magnitude : Rat := x.significand * (2 : Rat) ^ x.exponent

def toRat : Rat := if x.isNegative then -x.magnitude else x.magnitude

-- The magnitude of `x` under the sign of `y`, zeros included.
def withSignOf (y : Number) : Number := if y.isNegative then -x.abs else x.abs

end Number

end Calculator
