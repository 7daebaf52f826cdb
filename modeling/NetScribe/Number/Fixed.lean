import NetScribe.Number.Binary64

/-!
# Fixed decimals

A finite number rounded to a given number of decimal places is an integer count of units of the
last place. `scaled` is that count, `Decimal.fixed` its text: no trailing zero after the point, no
point without a digit behind it, and no sign in front of zero.
-/

namespace NetScribe

namespace Decimal

/-- The decimal digits of `n`, filled up with zeros in front to `width` of them. -/
def paddedDigits (width n : Nat) : List Char :=
  let digits := Nat.toDigits 10 n
  List.replicate (width - digits.length) '0' ++ digits

/-- The digits without the zeros at their end. -/
def trimZeros (digits : List Char) : List Char :=
  (digits.reverse.dropWhile (· == '0')).reverse

/-- The digits behind the point of `units` units of the last of `places` places. -/
def fractionDigits (places units : Nat) : List Char :=
  trimZeros (paddedDigits places (units % Nat.pow 10 places))

/-- The text of `units` units of the last of `places` places. -/
def fixed (minus : Bool) (units places : Nat) : List Char :=
  let sign := if minus && units != 0 then ['-'] else []
  let whole := Nat.toDigits 10 (units / Nat.pow 10 places)
  match fractionDigits places units with
  | [] => sign ++ whole
  | digits => sign ++ whole ++ '.' :: digits

end Decimal

/-- How many units of the last of `places` decimal places the magnitude of a finite number is,
rounded exactly and a half to even. -/
def Binary64.scaled (x : Binary64) (places : Nat) : Nat :=
  roundHalfEven (x.numerator * Nat.pow 10 places) x.denominator

end NetScribe
