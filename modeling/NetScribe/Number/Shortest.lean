import NetScribe.Number.Fixed

/-!
# The fewest digits

Many decimals read back as a given number: those in an interval around it. `Binary64.shortest` is
the one with the fewest digits, and of those the nearest. It looks at coarser and then finer decimal
grids, and on each only at the two points around the number; if any point of a grid lies in the
interval, one of these two does.
-/

namespace NetScribe

namespace Binary64

/-- The interval of reals that round to a finite number other than zero, over a common denominator:
its lower end, the number itself and its upper end. Where the exponent changes, the lower neighbour
is only half as far away. -/
structure Interval where
  low : Nat
  mid : Nat
  high : Nat
  den : Nat
  /-- The ends round to the number too. -/
  closed : Bool

/-- The interval of a finite number. -/
def interval (x : Binary64) : Interval :=
  let unit := Nat.pow 2 x.exponent.toNat
  let m := x.significand
  let down := if x.fraction = 0 && 1 < x.exponentField then 1 else 2
  { low := (4 * m - down) * unit
    mid := 4 * m * unit
    high := (4 * m + 2) * unit
    den := 4 * Nat.pow 2 (-x.exponent).toNat
    closed := m % 2 == 0 }

/-- The `k` with `10 ^ k ≤ num / den < 10 ^ (k + 1)`, for positive `num` and `den`. -/
def floorLog10 (num den : Nat) : Int :=
  if den ≤ num then (Nat.toDigits 10 (num / den)).length - 1
  else -(Nat.toDigits 10 ((den - 1) / num)).length

/-- The count of units `10 ^ k` that is in the interval: of the two around its middle the nearer,
and the even one if both are as near. -/
def Interval.hit? (i : Interval) (k : Int) : Option Nat :=
  let up := Nat.pow 10 (-k).toNat
  let unit := i.den * Nat.pow 10 k.toNat
  let below := i.mid * up / unit
  let above := below + 1
  let inside (count : Nat) : Bool :=
    if i.closed then i.low * up ≤ count * unit && count * unit ≤ i.high * up
    else i.low * up < count * unit && count * unit < i.high * up
  let toBelow := i.mid * up - below * unit
  let toAbove := above * unit - i.mid * up
  match inside below, inside above with
  | true, true =>
    if toBelow < toAbove then some below
    else if toAbove < toBelow then some above
    else if below % 2 = 0 then some below
    else some above
  | true, false => some below
  | false, true => some above
  | false, false => none

/-- The shortest decimal `count · 10 ^ k` that reads back as a finite number other than zero.
Seventeen digits are always enough. -/
def shortest (x : Binary64) : Nat × Int :=
  let i := x.interval
  let top := floorLog10 i.mid i.den
  let grids := (List.range 17).map fun digits : Nat => top - (digits : Int)
  (grids.findSome? fun k => (i.hit? k).map (·, k)).getD (0, 0)

end Binary64

/-! ## How decimals are written -/

namespace Decimal

/-- How a shortest decimal is written: which exponents of the first digit are written with a plain
point. The others are written with the exponent behind the letter `e`, always with its sign. -/
structure Layout where
  plainFrom : Int
  plainBelow : Int

/-- Digits with a point somewhere among, in front of or behind them; at least one digit stands on
either side. -/
def plain (digits : List Char) (exponent : Int) : List Char :=
  if exponent < 0 then
    '0' :: '.' :: List.replicate ((-exponent).toNat - 1) '0' ++ digits
  else
    let whole := exponent.toNat + 1
    if digits.length ≤ whole then
      digits ++ List.replicate (whole - digits.length) '0' ++ ['.', '0']
    else digits.take whole ++ '.' :: digits.drop whole

/-- Digits with a point behind the first, if there are more, and an exponent. -/
def scientific (digits : List Char) (exponent : Int) : List Char :=
  let mantissa := match digits with
    | [] => []
    | [first] => [first]
    | first :: rest => first :: '.' :: rest
  let sign := if exponent < 0 then '-' else '+'
  mantissa ++ 'e' :: sign :: Nat.toDigits 10 exponent.natAbs

/-- The text of `count · 10 ^ k`. -/
def Layout.write (n : Layout) (count : Nat) (k : Int) : List Char :=
  let digits := Nat.toDigits 10 count
  let exponent := k + digits.length - 1
  let digits := trimZeros digits
  if n.plainFrom ≤ exponent ∧ exponent < n.plainBelow then plain digits exponent
  else scientific digits exponent

end Decimal

end NetScribe
