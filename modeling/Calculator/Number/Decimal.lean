import Calculator.Number.Nearest

/-!
# Decimals of a number

`shortest` finds the decimal with the fewest digits that reads back as a given number, and the
nearest of those to it. On the grid of decimals with a given number of digits, only the two
neighbours of the number matter: if any point of the grid reads back, so does one of them. Seventeen
digits always do.
-/

namespace Calculator

-- Stands for `digits * 10 ^ exponent`.
structure Decimal where
  digits   : Nat
  exponent : Int
deriving DecidableEq

namespace Decimal

def toRat (d : Decimal) : Rat := d.digits * (10 : Rat) ^ d.exponent

-- How many digits a positive whole number has, less one.
def log10 (n : Nat) : Nat := if n < 10 then 0 else log10 (n / 10) + 1

def ReadsAs (d : Decimal) (x : Number) : Prop := Number.ofMagnitude d.toRat = x

instance (d : Decimal) (x : Number) : Decidable (d.ReadsAs x) :=
  inferInstanceAs (Decidable (_ = _))

-- The next decimal on the same grid. Only a single digit can gain one, and then 10 is written as 1.
def next (d : Decimal) : Decimal :=
  if d.digits = 9 then ⟨1, d.exponent + 1⟩ else ⟨d.digits + 1, d.exponent⟩

-- The decimal in steps of `10 ^ exponent` that is nearest to the positive number `x`, of those
-- that read back as `x`. A tie goes to the greater one.
def onGrid? (x : Number) (exponent : Int) : Option Decimal :=
  let steps := x.magnitude / (10 : Rat) ^ exponent
  let below : Decimal := ⟨steps.floor.toNat, exponent⟩
  let above := below.next
  if below.ReadsAs x ∧ (steps - steps.floor < 1 / 2 ∨ ¬above.ReadsAs x) then some below
  else if above.ReadsAs x then some above
  else none

-- The shortest decimal of a finite positive number.
def shortest (x : Number) : Decimal :=
  let decade := floorLog 10 log10 x.magnitude
  (List.range 17).findSome? (fun k : Nat => onGrid? x (decade - k)) |>.getD ⟨0, 0⟩

end Decimal

end Calculator
