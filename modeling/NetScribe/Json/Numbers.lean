import NetScribe.Json.Strings
import NetScribe.Json.Value
import NetScribe.Number.Scaled

/-!
# Reading numbers

A number without point and exponent is an integer as long as sixty-four bits hold it. Any other is
read as a significand and a power of ten: digits join the significand while sixty-four bits hold it,
further digits in front of the point only raise the power, and further digits behind it are dropped.
-/

namespace NetScribe.Json

/-- A decimal digit. -/
def isDigit (c : Char) : Bool := '0' ≤ c && c ≤ '9'

/-- The number a digit stands for. -/
def digitValue (c : Char) : Nat := c.toNat - '0'.toNat

/-- The number that digits stand for. -/
def digitsValue (digits : List Char) : Nat :=
  digits.foldl (fun value c => value * 10 + digitValue c) 0

/-- The largest significand. -/
def maxSignificand : Nat := Nat.pow 2 64 - 1

/-- The significand with as many digits joined to it as it can hold, and how many are left. -/
def absorb (significand : Nat) : List Char → Nat × Nat
  | [] => (significand, 0)
  | c :: rest =>
    let joined := significand * 10 + digitValue c
    if joined ≤ maxSignificand then absorb joined rest else (significand, rest.length + 1)

/-- The parts of a number. -/
structure Numeral where
  minus : Bool
  whole : List Char
  fraction : List Char := []
  /-- The written exponent. -/
  exponent : Option Int := none

namespace Numeral

/-- The significand and the power of ten, without the written exponent. -/
def scaled (n : Numeral) : Nat × Int :=
  let (significand, skipped) := absorb 0 n.whole
  let (significand, dropped) := absorb significand n.fraction
  (significand, (skipped : Int) - ((n.fraction.length : Int) - dropped))

/-- The largest exponent that is taken at its word; beyond it only the sign counts. -/
def maxExponent : Nat := Nat.pow 2 31 - 1

/-- The magnitude of a number with a point or an exponent; none if it is too large. -/
def magnitude? (n : Numeral) : Option Binary64 :=
  let (significand, power) := n.scaled
  let written := n.exponent.getD 0
  if maxExponent < written.natAbs then
    if 0 < written && significand != 0 then none else some (Binary64.ofInt 0)
  else Binary64.ofScaled? significand (power + written)

/-- The number as a value; none if it is too large. -/
def value? (n : Numeral) : Option Json :=
  let whole := digitsValue n.whole
  if n.fraction.isEmpty && n.exponent.isNone && whole ≤ maxSignificand then
    if !n.minus then some (.integer whole)
    else if 0 < whole && whole ≤ Nat.pow 2 63 then some (.integer (-whole))
    else some (.float (Binary64.ofInt whole).neg)
  else n.magnitude?.map fun x => .float (if n.minus then x.neg else x)

end Numeral

/-- The exponent behind its letter. -/
def exponentPart (text : List Char) : Except Fault (Int × List Char) :=
  let (minus, text) := match text with
    | '+' :: rest => (false, rest)
    | '-' :: rest => (true, rest)
    | text => (false, text)
  match text with
  | [] => .error ⟨.endOfValue, []⟩
  | c :: rest =>
    if isDigit c then
      let value : Int := digitsValue (c :: rest.takeWhile isDigit)
      .ok (if minus then -value else value, rest.dropWhile isDigit)
    else .error ⟨.invalidNumber, rest⟩

/-- A number with its exponent, if one follows. -/
def withExponent (n : Numeral) : Reader Numeral
  | 'e' :: rest | 'E' :: rest =>
    (exponentPart rest).map fun (exponent, rest) => ({ n with exponent }, rest)
  | text => .ok (n, text)

/-- A number with its fraction and exponent, if they follow. -/
def withFraction (n : Numeral) : Reader Numeral
  | '.' :: rest =>
    let digits := rest.takeWhile isDigit
    let rest := rest.dropWhile isDigit
    if digits.isEmpty then
      match rest with
      | [] => .error ⟨.endOfValue, []⟩
      | _ => .error (.onNext .invalidNumber rest)
    else withExponent { n with fraction := digits } rest
  | text => withExponent n text

/-- The parts of a number from its first digit on. A leading zero stands alone. -/
def numeral (minus : Bool) : Reader Numeral
  | [] => .error ⟨.endOfValue, []⟩
  | '0' :: rest =>
    if rest.head?.any isDigit then .error (.onNext .invalidNumber rest)
    else withFraction { minus, whole := ['0'] } rest
  | c :: rest =>
    if isDigit c then
      withFraction { minus, whole := c :: rest.takeWhile isDigit } (rest.dropWhile isDigit)
    else .error ⟨.invalidNumber, rest⟩

/-- A number from its first digit on. -/
def number (minus : Bool) : Reader Json := fun text =>
  match numeral minus text with
  | .error fault => .error fault
  | .ok (n, rest) =>
    match n.value? with
    | some value => .ok (value, rest)
    | none => .error ⟨.numberOutOfRange, rest⟩

/-! ## Numbers nobody needs -/

/-- The text behind the exponent of a number that is not needed. -/
def skipExponent : List Char → Except Fault (List Char)
  | 'e' :: rest | 'E' :: rest =>
    let rest := match rest with
      | '+' :: rest => rest
      | '-' :: rest => rest
      | rest => rest
    match rest with
    | [] => .error ⟨.invalidNumber, []⟩
    | c :: rest =>
      if isDigit c then .ok (rest.dropWhile isDigit) else .error ⟨.invalidNumber, rest⟩
  | text => .ok text

/-- The text behind the fraction and exponent of a number that is not needed. -/
def skipFraction : List Char → Except Fault (List Char)
  | '.' :: rest =>
    if rest.head?.any isDigit then skipExponent (rest.dropWhile isDigit)
    else .error (.onNext .invalidNumber rest)
  | text => skipExponent text

/-- The text behind a number that is not needed, from its first digit on. -/
def skipNumber : List Char → Except Fault (List Char)
  | [] => .error ⟨.invalidNumber, []⟩
  | '0' :: rest =>
    if rest.head?.any isDigit then .error (.onNext .invalidNumber rest)
    else skipFraction rest
  | c :: rest =>
    if isDigit c then skipFraction (rest.dropWhile isDigit) else .error ⟨.invalidNumber, rest⟩

end NetScribe.Json
