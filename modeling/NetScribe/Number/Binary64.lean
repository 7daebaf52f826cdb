import NetScribe.Number.Rounding

/-!
# Binary floating point, 64 bits wide

A number is its bit pattern: one sign bit, eleven exponent bits, fifty-two fraction bits. A finite
pattern stands for `± significand · 2 ^ exponent`, so everything said about finite numbers is said
in exact integers. `nearest` is the only way back from an exact quotient to a pattern.
-/

namespace NetScribe

/-- A 64-bit binary floating-point number, given by its bit pattern. -/
structure Binary64 where
  bits : UInt64
  deriving DecidableEq, Inhabited, Repr

namespace Binary64

/-- The sign bit. -/
def negative (x : Binary64) : Bool :=
  decide (Nat.pow 2 63 ≤ x.bits.toNat)

/-- The eleven bits of the biased exponent. -/
def exponentField (x : Binary64) : Nat :=
  x.bits.toNat / Nat.pow 2 52 % Nat.pow 2 11

/-- The fifty-two bits of the fraction. -/
def fraction (x : Binary64) : Nat :=
  x.bits.toNat % Nat.pow 2 52

/-- All patterns are numbers but those with the largest exponent field. -/
def isFinite (x : Binary64) : Bool :=
  x.exponentField != 2047

/-- The integer `m` of `± m · 2 ^ q`; the leading bit is implied except in the lowest binade. -/
def significand (x : Binary64) : Nat :=
  if x.exponentField = 0 then x.fraction else x.fraction + Nat.pow 2 52

/-- The exponent `q` of `± m · 2 ^ q`. -/
def exponent (x : Binary64) : Int :=
  (max x.exponentField 1 : Nat) - 1075

/-- The magnitude of a finite number is `numerator / denominator`. -/
def numerator (x : Binary64) : Nat :=
  x.significand * Nat.pow 2 x.exponent.toNat

@[inherit_doc numerator]
def denominator (x : Binary64) : Nat :=
  Nat.pow 2 (-x.exponent).toNat

/-- The bits that are left when the sign is cleared are zero. -/
def isZero (x : Binary64) : Bool :=
  x.bits.toNat % Nat.pow 2 63 == 0

/-- The same number with the sign bit flipped. -/
def neg (x : Binary64) : Binary64 :=
  ⟨x.bits ^^^ 0x8000000000000000⟩

/-! ## From exact quotients to patterns -/

/-- The `k` with `2 ^ k ≤ num / den < 2 ^ (k + 1)`, for positive `num` and `den`. -/
def floorLog2 (num den : Nat) : Int :=
  let guess : Int := (num.log2 : Int) - den.log2
  if den * Nat.pow 2 guess.toNat ≤ num * Nat.pow 2 (-guess).toNat then guess else guess - 1

/-- The pattern nearest to `num / den`, without its sign. The significand of a finite result has at
most fifty-three bits, and its exponent is at least `-1074`. Since neighbouring patterns are
neighbouring numbers, a significand rounded up to the next power of two carries into the exponent
by itself, and whatever is too large ends at the pattern of infinity. -/
def nearestMagnitude (num den : Nat) : Nat :=
  if num = 0 then 0
  else
    let q := max (floorLog2 num den - 52) (-1074)
    let m := roundHalfEven (num * Nat.pow 2 (-q).toNat) (den * Nat.pow 2 q.toNat)
    min ((q + 1074).toNat * Nat.pow 2 52 + m) (2047 * Nat.pow 2 52)

/-- The number nearest to `± num / den`, ties going to the even significand. -/
def nearest (minus : Bool) (num den : Nat) : Binary64 :=
  ⟨UInt64.ofNat (nearestMagnitude num den + if minus then Nat.pow 2 63 else 0)⟩

/-- The number nearest to an integer. -/
def ofInt (i : Int) : Binary64 :=
  nearest (decide (i < 0)) i.natAbs 1

/-- The correctly rounded power `10 ^ k`. -/
def powerOfTen (k : Nat) : Binary64 :=
  nearest false (Nat.pow 10 k) 1

/-- The rounded product of two finite numbers. -/
def mul (x y : Binary64) : Binary64 :=
  nearest (x.negative != y.negative)
    (x.numerator * y.numerator) (x.denominator * y.denominator)

/-- The rounded quotient of two finite numbers, the second not zero. -/
def div (x y : Binary64) : Binary64 :=
  nearest (x.negative != y.negative)
    (x.numerator * y.denominator) (x.denominator * y.numerator)

end Binary64

end NetScribe
