import NetScribe.Number.Fixed

/-!
# Elapsed time

How long a run took, in a unit that keeps the number short.
-/

namespace NetScribe.Run

/-- The text of `units` units of the last of `places` places, all of them written. -/
def placesText (units places : Nat) : String :=
  toString (units / Nat.pow 10 places) ++ "." ++
    String.ofList (Decimal.paddedDigits places (units % Nat.pow 10 places))

/-- A span of time in words: whole microseconds below a millisecond, tenths of milliseconds below a
second, hundredths of seconds from there on. -/
def elapsedText (nanoseconds : Nat) : String :=
  let microseconds := nanoseconds / 1000
  if microseconds < 1000 then s!"{microseconds}μs"
  else if microseconds < 1000000 then placesText (roundHalfEven microseconds 100) 1 ++ "ms"
  else placesText (roundHalfEven nanoseconds 10000000) 2 ++ "s"

end NetScribe.Run
