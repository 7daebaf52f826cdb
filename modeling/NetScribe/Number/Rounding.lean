/-!
# Rounding a quotient

Every rounded number of the library, binary or decimal, goes through one rule on natural numbers:
the nearest integer to a quotient, a half going to the even neighbour. The two lemmas below are
all that is needed of it: the result is within half a unit, and an exact half ends even.
-/

namespace NetScribe

/-- The integer nearest to `num / den`; a half goes to the even neighbour. -/
def roundHalfEven (num den : Nat) : Nat :=
  let below := num / den
  let left := num % den
  if 2 * left < den then below
  else if den < 2 * left then below + 1
  else if below % 2 = 0 then below
  else below + 1

/-- **The result is within half a unit of the quotient.** -/
theorem roundHalfEven_near (num den : Nat) (h : 0 < den) :
    2 * (roundHalfEven num den * den) ≤ 2 * num + den ∧
      2 * num ≤ 2 * (roundHalfEven num den * den) + den := by
  have split := Nat.div_add_mod num den
  have small := Nat.mod_lt num h
  have comm : num / den * den = den * (num / den) := Nat.mul_comm _ _
  have next : (num / den + 1) * den = den * (num / den) + den := by
    rw [Nat.add_mul, Nat.one_mul, comm]
  unfold roundHalfEven
  dsimp only
  repeat' split
  all_goals omega

/-- A quotient halfway between two integers is rounded to the even one. -/
theorem roundHalfEven_tie (num den : Nat) (tie : 2 * (num % den) = den) :
    roundHalfEven num den % 2 = 0 := by
  unfold roundHalfEven
  dsimp only
  repeat' split
  all_goals omega

end NetScribe
