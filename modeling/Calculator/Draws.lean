import Calculator.Number.Nearest

/-!
# Random draws

The function `random` draws numbers one after the other. What it will draw is fixed by an unlimited
supply of 64-bit words and by how many of them have been used, so a run is determined by its supply.
-/

namespace Calculator

structure Draws where
  word : Nat → UInt64
  used : Nat

namespace Draws

-- The next number in [0, 1): the leading 53 bits of the next word as a binary fraction.
def next (d : Draws) : Number × Draws :=
  let bits := (d.word d.used).toNat >>> 11
  (.nearest (mkRat bits (1 <<< 53)), { d with used := d.used + 1 })

-- An unpredictable supply from a seed. Word `n` mixes the bits of the `n`-th step away from the
-- seed, in steps of 2^64 divided by the golden ratio.
def ofSeed (seed : UInt64) : Draws where
  word n :=
    let z := seed + (n + 1).toUInt64 * 0x9e3779b97f4a7c15
    let z := (z ^^^ (z >>> 30)) * 0xbf58476d1ce4e5b9
    let z := (z ^^^ (z >>> 27)) * 0x94d049bb133111eb
    z ^^^ (z >>> 31)
  used := 0

end Draws

end Calculator
