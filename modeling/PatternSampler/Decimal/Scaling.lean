/-!
# Floats from decimal parts

A decimal literal is read as a whole significand below `2^64` and a power of ten. `Decimal.scaled`
brings the two together in one rounded multiplication or division, or, below the smallest power
that a float can hold, in several. A result too large for a float is refused, so no infinity
arises.
-/

namespace PatternSampler.Decimal

/-- The largest power of ten that a float holds. -/
def maxPower : Nat := 308

/-- A power of ten, rounded to a float. -/
def power (e : Nat) : Float :=
  Float.ofScientific 1 false e

/-- `x` times ten to the given power. -/
def scaled (x : Float) (exponent : Int) : Option Float :=
  if 0 ≤ exponent then
    if exponent ≤ maxPower then
      let y := x * power exponent.toNat
      if y.isInf then none else some y
    else if x == 0 then some x else none
  else if -maxPower ≤ exponent then some (x / power (-exponent).toNat)
  else if x == 0 then some x
  else scaled (x / power maxPower) (exponent + maxPower)
termination_by (-exponent).toNat
decreasing_by simp only [maxPower] at *; omega

end PatternSampler.Decimal
