import NetScribe.Number.Binary64

/-!
# Reading a decimal

A decimal is read as an integer significand and a power of ten. The significand is rounded to
binary first and then multiplied or divided by the rounded power. Each of these steps is exact or
nearest, but together they may end a step away from the number nearest to the decimal.
-/

namespace NetScribe.Binary64

/-- The largest power of ten that is finite. -/
def maxPower : Nat := 308

/-- Divide by a power of ten given by its negative exponent. An exponent out of reach is brought
nearer by dividing by the largest power, until the number is zero; three times is enough for any
significand of sixty-four bits. -/
def divideByPower : Nat → Binary64 → Int → Binary64
  | 0, x, _ => x
  | fuel + 1, x, exponent =>
    if exponent < -(maxPower : Int) then
      if x.isZero then x
      else divideByPower fuel (x.div (powerOfTen maxPower)) (exponent + maxPower)
    else x.div (powerOfTen (-exponent).toNat)

/-- The number read from `significand · 10 ^ exponent`; none if it is too large. -/
def ofScaled? (significand : Nat) (exponent : Int) : Option Binary64 :=
  let x := ofInt significand
  if exponent < 0 then some (divideByPower 4 x exponent)
  else if exponent ≤ maxPower then
    let product := x.mul (powerOfTen exponent.toNat)
    if product.isFinite then some product else none
  else if x.isZero then some x
  else none

end NetScribe.Binary64
