import Mathlib.Algebra.Order.Field.Power
import Mathlib.Algebra.Order.Ring.Abs
import Mathlib.Algebra.Field.Rat
import Mathlib.Algebra.Order.Ring.Unbundled.Rat
import Mathlib.Computability.RegularExpressions
import Mathlib.Data.List.DropRight
import Mathlib.Tactic.FieldSimp
import Mathlib.Tactic.Linarith
import Mathlib.Tactic.Positivity
import Mathlib.Tactic.Ring
import NetScribe.Proofs.Texts

/-!
# Numbers as decimals

A finite number is written as the decimal nearest to it with so many places. What the decimal is and
how it is spelled are kept apart. `NearestEven` says which count of units of the last place a number
is rounded to, in exact rationals, and `Binary64.roundsTo_scaled` that the library counts so.
`Decimal.Spells` says which text spells a number, by a regular expression and the value of a text:
no idle zeros, no point without digits behind it, no sign in front of zero. A number has one such
text (`Decimal.Spells.unique`), and a fixed decimal is it (`Decimal.spells_fixed`), so the text of a
number tells what the number was rounded to and nothing else.
-/

namespace NetScribe

/-! ## The nearest integer -/

/-- `n` is the integer nearest to `q`, and the even one where two are as near. -/
def NearestEven (q : ℚ) (n : ℤ) : Prop :=
  |q - n| ≤ 1 / 2 ∧ (|q - n| = 1 / 2 → Even n)

namespace NearestEven

variable {q : ℚ} {m n : ℤ}

theorem neg (h : NearestEven q n) : NearestEven (-q) (-n) := by
  have habs : |-q - ((-n : ℤ) : ℚ)| = |q - n| := by
    rw [← abs_neg]
    push_cast
    ring_nf
  exact ⟨habs ▸ h.1, fun htie => (h.2 (habs ▸ htie)).neg⟩

/-- **No number has two nearest even integers.** -/
theorem unique (hm : NearestEven q m) (hn : NearestEven q n) : m = n := by
  obtain ⟨hm, hmeven⟩ := hm
  obtain ⟨hn, hneven⟩ := hn
  by_contra hne
  wlog hlt : m < n generalizing m n
  · exact this hn hneven hm hmeven (Ne.symm hne) (lt_of_le_of_ne (not_lt.mp hlt) (Ne.symm hne))
  -- they are a unit apart, so the number is halfway between them
  have hstep : (m : ℚ) + 1 ≤ n := by exact_mod_cast hlt
  have hmle := abs_le.mp hm
  have hnle := abs_le.mp hn
  have hmhalf : q - m = 1 / 2 := by linarith
  have hnhalf : q - n = -(1 / 2) := by linarith
  have hnext : n = m + 1 := by
    have : (n : ℚ) = m + 1 := by linarith
    exact_mod_cast this
  have hm2 := hmeven (by rw [hmhalf]; norm_num)
  have hn2 := hneven (by rw [hnhalf]; norm_num)
  rw [hnext, Int.even_add_one] at hn2
  exact hn2 hm2

end NearestEven

/-- A quotient is rounded to its nearest even integer. -/
theorem nearestEven_roundHalfEven (num : Nat) {den : Nat} (h : 0 < den) :
    NearestEven ((num : ℚ) / den) (roundHalfEven num den) := by
  obtain ⟨hlow, hhigh⟩ := roundHalfEven_near num den h
  have hden : (0 : ℚ) < den := by exact_mod_cast h
  set r := roundHalfEven num den with hr
  have hlow : 2 * ((r : ℚ) * den) ≤ 2 * num + den := by exact_mod_cast hlow
  have hhigh : 2 * (num : ℚ) ≤ 2 * (r * den) + den := by exact_mod_cast hhigh
  have hdist : (num : ℚ) / den - r = (num - r * den) / den := by field_simp
  constructor
  · rw [Int.cast_natCast, hdist, abs_le]
    constructor
    · rw [le_div_iff₀ hden]
      linarith
    · rw [div_le_iff₀ hden]
      linarith
  · intro htie
    rw [Int.cast_natCast, hdist, abs_div, abs_of_pos hden, div_eq_iff hden.ne'] at htie
    -- a half over or under: either way the remainder is half of the denominator
    obtain ⟨k, hk⟩ : ∃ k, 2 * num = den + 2 * den * k := by
      rcases abs_eq (by positivity) |>.mp htie with hover | hunder
      · refine ⟨r, ?_⟩
        have : 2 * (num : ℚ) = den + 2 * den * r := by linarith
        exact_mod_cast this
      · have hsum : 2 * (num : ℚ) + den = 2 * den * r := by linarith
        have hsum : 2 * num + den = 2 * den * r := by exact_mod_cast hsum
        refine ⟨r - 1, ?_⟩
        cases hcase : r with
        | zero =>
          rw [hcase] at hsum
          omega
        | succ k =>
          rw [hcase, Nat.mul_succ] at hsum
          rw [Nat.add_sub_cancel]
          omega
    have hhalf : 2 * (num % den) = den := by
      rw [← Nat.mul_mod_mul_left, hk, Nat.add_mul_mod_self_left]
      exact Nat.mod_eq_of_lt (by omega)
    have heven := roundHalfEven_tie num den hhalf
    exact_mod_cast Nat.even_iff.mpr heven


/-! ## What a pattern stands for -/

namespace Binary64

/-- The number that a finite pattern stands for. -/
def value (x : Binary64) : ℚ :=
  (if x.negative then -1 else 1) * x.significand * 2 ^ x.exponent

/-- `n` units of the last of `places` decimal places are nearest to a number, and an even count
where two are as near. -/
def RoundsTo (x : Binary64) (places : ℕ) (n : ℤ) : Prop :=
  NearestEven (x.value * 10 ^ places) n

theorem denominator_pos (x : Binary64) : 0 < x.denominator := Nat.pow_pos (by omega)

/-- The value of a pattern as a quotient. -/
theorem value_eq (x : Binary64) :
    x.value = (if x.negative then -1 else 1) * (x.numerator / x.denominator : ℚ) := by
  have hquotient : (x.significand : ℚ) * 2 ^ x.exponent = x.numerator / x.denominator := by
    simp only [numerator, denominator, Nat.pow_eq]
    push_cast
    obtain h | h := Int.le_total 0 x.exponent
    · have hneg : (-x.exponent).toNat = 0 := by omega
      have hself : (x.exponent.toNat : ℤ) = x.exponent := Int.toNat_of_nonneg h
      rw [hneg, pow_zero, div_one, ← zpow_natCast, hself]
    · have hzero : x.exponent.toNat = 0 := by omega
      have hself : ((-x.exponent).toNat : ℤ) = -x.exponent := Int.toNat_of_nonneg (by omega)
      rw [hzero, pow_zero, mul_one, ← zpow_natCast, hself, zpow_neg, div_inv_eq_mul]
  rw [value, mul_assoc, hquotient]

/-- **The scaled magnitude is what a number is rounded to**, up to its sign. -/
theorem roundsTo_scaled (x : Binary64) (places : ℕ) :
    x.RoundsTo places ((if x.negative then -1 else 1) * x.scaled places) := by
  have hmagnitude := nearestEven_roundHalfEven (x.numerator * 10 ^ places) x.denominator_pos
  rw [RoundsTo, value_eq]
  have hmul : ((x.numerator * 10 ^ places : ℕ) : ℚ) / x.denominator =
      x.numerator / x.denominator * 10 ^ places := by
    push_cast
    ring
  rw [hmul] at hmagnitude
  split
  · have hneg := hmagnitude.neg
    simp only [neg_mul, one_mul]
    exact hneg
  · simp only [one_mul]
    exact hmagnitude

end Binary64


namespace Decimal

/-! ## Texts of decimals -/

/-- One of some letters. -/
def oneOf (letters : List Char) : RegularExpression Char :=
  (letters.map RegularExpression.char).sum

/-- Any digit. -/
def digit : RegularExpression Char := oneOf ['0', '1', '2', '3', '4', '5', '6', '7', '8', '9']

/-- Any digit but zero. -/
def positiveDigit : RegularExpression Char := oneOf ['1', '2', '3', '4', '5', '6', '7', '8', '9']

/-- A decimal: a sign or none, a whole number without a zero in front, and a fraction that does not
end in zero or none. -/
def pattern : RegularExpression Char :=
  (1 + .char '-') * (.char '0' + positiveDigit * digit.star) *
    (1 + .char '.' * digit.star * positiveDigit)

/-- The digits behind the point of a text. -/
def behindPoint (text : List Char) : List Char :=
  (text.dropWhile (· != '.')).drop 1

/-- The value of a decimal without its sign. -/
def unsignedValue (text : List Char) : ℚ :=
  Nat.ofDigitChars 10 (text.takeWhile (· != '.')) 0 +
    Nat.ofDigitChars 10 (behindPoint text) 0 / 10 ^ (behindPoint text).length

/-- The value of a decimal. -/
def textValue : List Char → ℚ
  | '-' :: rest => -unsignedValue rest
  | text => unsignedValue text

/-- A text is the plain spelling of a number. -/
def Spells (text : List Char) (q : ℚ) : Prop :=
  pattern.rmatch text = true ∧ text ≠ ['-', '0'] ∧ textValue text = q

/-- A sign, a whole number and the fraction behind a point, if there is any. -/
def spelled (minus : Bool) (whole fraction : List Char) : List Char :=
  (if minus then ['-'] else []) ++ whole ++ if fraction = [] then [] else '.' :: fraction

/-- Digits in front of and behind a point that are written down without idle zeros. -/
structure Plain (whole fraction : List Char) : Prop where
  whole_digits : ∀ c ∈ whole, c.isDigit = true
  whole_first : whole = ['0'] ∨ ∃ c rest, whole = c :: rest ∧ c ≠ '0'
  fraction_digits : ∀ c ∈ fraction, c.isDigit = true
  fraction_last : fraction.getLast? ≠ some '0'

theorem oneOf_rmatch_iff {letters text : List Char} :
    (oneOf letters).rmatch text = true ↔ ∃ c ∈ letters, text = [c] := by
  induction letters with
  | nil => simp [oneOf, RegularExpression.zero_rmatch]
  | cons letter rest ih =>
    rw [oneOf, List.map_cons, List.sum_cons, RegularExpression.add_rmatch_iff,
      RegularExpression.char_rmatch_iff, List.exists_mem_cons_iff]
    exact or_congr_right ih

/-- A digit stands for a number below ten. -/
theorem exists_digitChar {c : Char} (h : c.isDigit = true) : ∃ n < 10, c = Nat.digitChar n := by
  have hrange : 48 ≤ c.toNat ∧ c.toNat ≤ 57 := by
    simpa [Char.isDigit, UInt32.le_iff_toNat_le] using h
  refine ⟨c.toNat - 48, by omega, Char.toNat_inj.mp ?_⟩
  rw [Nat.toNat_digitChar_of_lt_ten (by omega)]
  omega

theorem isDigit_iff {c : Char} :
    c.isDigit = true ↔ c ∈ ['0', '1', '2', '3', '4', '5', '6', '7', '8', '9'] := by
  constructor
  · intro h
    obtain ⟨n, hn, rfl⟩ := exists_digitChar h
    have hall : ∀ n < 10,
        Nat.digitChar n ∈ ['0', '1', '2', '3', '4', '5', '6', '7', '8', '9'] := by decide
    exact hall n hn
  · have hall : ['0', '1', '2', '3', '4', '5', '6', '7', '8', '9'].all Char.isDigit = true := by
      decide
    exact List.all_eq_true.mp hall c

theorem digit_rmatch_iff {text : List Char} :
    digit.rmatch text = true ↔ ∃ c, text = [c] ∧ c.isDigit = true := by
  rw [digit, oneOf_rmatch_iff]
  constructor
  · rintro ⟨c, hc, rfl⟩
    exact ⟨c, rfl, isDigit_iff.mpr hc⟩
  · rintro ⟨c, rfl, hc⟩
    exact ⟨c, isDigit_iff.mp hc, rfl⟩

theorem positiveDigit_rmatch_iff {text : List Char} :
    positiveDigit.rmatch text = true ↔ ∃ c, text = [c] ∧ c.isDigit = true ∧ c ≠ '0' := by
  rw [positiveDigit, oneOf_rmatch_iff]
  constructor
  · rintro ⟨c, hc, rfl⟩
    refine ⟨c, rfl, isDigit_iff.mpr (List.mem_cons_of_mem _ hc), ?_⟩
    rintro rfl
    exact absurd hc (by decide)
  · rintro ⟨c, rfl, hc, hne⟩
    exact ⟨c, (List.mem_cons.mp (isDigit_iff.mp hc)).resolve_left hne, rfl⟩

theorem digits_rmatch_iff {text : List Char} :
    digit.star.rmatch text = true ↔ ∀ c ∈ text, c.isDigit = true := by
  rw [RegularExpression.star_rmatch_iff]
  constructor
  · rintro ⟨parts, rfl, hparts⟩ c hc
    obtain ⟨part, hpart, hc⟩ := List.mem_flatten.mp hc
    obtain ⟨d, rfl, hd⟩ := digit_rmatch_iff.mp (hparts part hpart).2
    rwa [List.mem_singleton.mp hc]
  · intro h
    refine ⟨text.map fun c => [c], ?_, fun part hpart => ?_⟩
    · rw [← List.flatMap_def, List.flatMap_singleton']
    · obtain ⟨c, hc, rfl⟩ := List.mem_map.mp hpart
      exact ⟨by simp, digit_rmatch_iff.mpr ⟨c, rfl, h c hc⟩⟩

/-- **The pattern is that of plain spellings.** -/
theorem pattern_rmatch_iff {text : List Char} :
    pattern.rmatch text = true ↔
      ∃ minus whole fraction, Plain whole fraction ∧ text = spelled minus whole fraction := by
  have hsign : ∀ sign : List Char, (sign = [] ∨ sign = ['-']) ↔
      ∃ minus : Bool, sign = if minus then ['-'] else [] := by
    intro sign
    simp
  simp only [pattern, RegularExpression.mul_rmatch_iff, RegularExpression.add_rmatch_iff,
    RegularExpression.one_rmatch_iff, RegularExpression.char_rmatch_iff, digits_rmatch_iff,
    positiveDigit_rmatch_iff, hsign]
  constructor
  · rintro ⟨_, back, rfl, ⟨_, whole, rfl, ⟨minus, rfl⟩, hwhole⟩, hback⟩
    have hdigits : (∀ c ∈ whole, c.isDigit = true) ∧
        (whole = ['0'] ∨ ∃ c rest, whole = c :: rest ∧ c ≠ '0') := by
      rcases hwhole with rfl | ⟨_, rest, rfl, ⟨c, rfl, hc, hne⟩, hrest⟩
      · exact ⟨by simp, Or.inl rfl⟩
      · exact ⟨List.forall_mem_cons.mpr ⟨hc, hrest⟩, Or.inr ⟨c, rest, rfl, hne⟩⟩
    rcases hback with rfl | ⟨_, _, rfl, ⟨_, digits, rfl, rfl, hdigits'⟩, c, rfl, hc, hne⟩
    · exact ⟨minus, whole, [], ⟨hdigits.1, hdigits.2, by simp, by simp⟩, by simp [spelled]⟩
    · refine ⟨minus, whole, digits ++ [c], ⟨hdigits.1, hdigits.2, ?_, ?_⟩, by simp [spelled]⟩
      · exact List.forall_mem_append.mpr ⟨hdigits', by simpa using hc⟩
      · simpa using hne
  · rintro ⟨minus, whole, fraction, ⟨hwhole, hfirst, hfraction, hlast⟩, rfl⟩
    refine ⟨_, _, rfl, ⟨_, whole, rfl, ⟨minus, rfl⟩, ?_⟩, ?_⟩
    · rcases hfirst with rfl | ⟨c, rest, rfl, hne⟩
      · exact Or.inl rfl
      · obtain ⟨hc, hrest⟩ := List.forall_mem_cons.mp hwhole
        exact Or.inr ⟨[c], rest, rfl, ⟨c, rfl, hc, hne⟩, hrest⟩
    · rcases List.eq_nil_or_concat fraction with rfl | ⟨digits, c, rfl⟩
      · exact Or.inl rfl
      · rw [List.concat_eq_append] at *
        obtain ⟨hdigits, hc⟩ := List.forall_mem_append.mp hfraction
        refine Or.inr ⟨'.' :: digits, [c], by simp, ⟨['.'], digits, rfl, rfl, hdigits⟩, c, rfl,
          ?_, ?_⟩
        · exact hc c List.mem_cons_self
        · simpa using hlast

/-! ## The value of a spelling -/

/-- The value of digits in front of and behind a point. -/
def magnitude (whole fraction : List Char) : ℚ :=
  Nat.ofDigitChars 10 whole 0 + Nat.ofDigitChars 10 fraction 0 / 10 ^ fraction.length

/-- The value of a sign. -/
def signValue (minus : Bool) : ℚ := if minus then -1 else 1

theorem ne_point_of_isDigit {c : Char} (h : c.isDigit = true) : (c != '.') = true := by
  rw [bne_iff_ne]
  rintro rfl
  cases h

/-- What stands in front of and behind the point. -/
theorem split_point {front : List Char} (h : ∀ c ∈ front, (c != '.') = true)
    (fraction : List Char) :
    let text := front ++ if fraction = [] then [] else '.' :: fraction
    text.takeWhile (· != '.') = front ∧ behindPoint text = fraction := by
  intro text
  by_cases hnil : fraction = []
  · simp only [text, hnil, if_true, List.append_nil, behindPoint]
    rw [List.takeWhile_eq_self_iff.mpr h, List.dropWhile_eq_nil_iff.mpr h]
    exact ⟨rfl, rfl⟩
  · simp only [text, hnil, if_false, behindPoint]
    rw [List.takeWhile_append_of_pos h, List.dropWhile_append_of_pos h]
    simp

section Plain

variable {whole fraction : List Char}

theorem Plain.whole_ne_point (h : Plain whole fraction) : ∀ c ∈ whole, (c != '.') = true :=
  fun c hc => ne_point_of_isDigit (h.whole_digits c hc)

theorem Plain.behindPoint_eq (h : Plain whole fraction) (minus : Bool) :
    behindPoint (spelled minus whole fraction) = fraction := by
  refine (split_point (List.forall_mem_append.mpr ⟨?_, h.whole_ne_point⟩) fraction).2
  cases minus <;> simp

theorem Plain.isDigit_of_mem (h : Plain whole fraction) {minus : Bool} {c : Char}
    (hc : c ∈ spelled minus whole fraction) : c.isDigit = true ∨ c = '-' ∨ c = '.' := by
  rcases List.mem_append.mp hc with hfront | hback
  · rcases List.mem_append.mp hfront with hsign | hwhole
    · cases minus with
      | true => exact Or.inr (Or.inl (List.mem_singleton.mp hsign))
      | false => cases hsign
    · exact Or.inl (h.whole_digits c hwhole)
  · by_cases hnil : fraction = []
    · rw [if_pos hnil] at hback
      cases hback
    · rw [if_neg hnil] at hback
      rcases List.mem_cons.mp hback with hpoint | hdigit
      · exact Or.inr (Or.inr hpoint)
      · exact Or.inl (h.fraction_digits c hdigit)

theorem Plain.spelled_ne_nil (h : Plain whole fraction) (minus : Bool) :
    spelled minus whole fraction ≠ [] := by
  intro hnil
  have hwhole := (List.append_eq_nil_iff.mp (List.append_eq_nil_iff.mp hnil).1).2
  rcases h.whole_first with hzero | ⟨c, rest, hdigits, -⟩
  · rw [hzero] at hwhole
    cases hwhole
  · rw [hdigits] at hwhole
    cases hwhole

/-- A point stands in a spelling only in front of digits. -/
theorem Plain.point_mem_iff (h : Plain whole fraction) (minus : Bool) :
    '.' ∈ spelled minus whole fraction ↔ fraction ≠ [] := by
  have hwhole : '.' ∉ whole := fun hpoint => absurd (h.whole_ne_point '.' hpoint) (by decide)
  by_cases hnil : fraction = []
  · cases minus <;> simp [spelled, hnil, hwhole]
  · simp [spelled, hnil]

/-- With a point, a spelling ends in a digit other than zero. -/
theorem Plain.getLast?_ne (h : Plain whole fraction) (minus : Bool)
    (hpoint : '.' ∈ spelled minus whole fraction) {c : Char} (hc : c = '0' ∨ c = '.') :
    (spelled minus whole fraction).getLast? ≠ some c := by
  have hne := (h.point_mem_iff minus).mp hpoint
  have hlast : (spelled minus whole fraction).getLast? = fraction.getLast? := by
    rcases List.eq_nil_or_concat fraction with hnil | ⟨digits, last, rfl⟩
    · exact absurd hnil hne
    · simp [spelled, List.getLast?_append, List.getLast?_cons]
  rw [hlast]
  rcases hc with rfl | rfl
  · exact h.fraction_last
  · intro hlast
    exact absurd (h.fraction_digits '.' (List.mem_of_getLast? hlast)) (by decide)

end Plain

/-- The value of a spelling is that of its parts. -/
theorem textValue_spelled {whole fraction : List Char} (minus : Bool) (h : Plain whole fraction) :
    textValue (spelled minus whole fraction) =
      signValue minus * magnitude whole fraction := by
  have ⟨hfront, hback⟩ := split_point h.whole_ne_point fraction
  have hvalue : unsignedValue (whole ++ if fraction = [] then [] else '.' :: fraction) =
      magnitude whole fraction := by
    rw [unsignedValue, hfront, hback, magnitude]
  cases minus with
  | true =>
    change -unsignedValue (whole ++ if fraction = [] then [] else '.' :: fraction) = _
    rw [hvalue, signValue, if_pos rfl, neg_one_mul]
  | false =>
    -- a whole number starts with a digit, so the text has no sign
    have hnosign : textValue (whole ++ if fraction = [] then [] else '.' :: fraction) =
        unsignedValue (whole ++ if fraction = [] then [] else '.' :: fraction) := by
      rw [textValue]
      intro rest hrest
      rcases h.whole_first with hzero | ⟨c, digits, hdigits, -⟩
      · rw [hzero] at hrest
        cases hrest
      · rw [hdigits] at hrest
        have hc := h.whole_digits c (hdigits ▸ List.mem_cons_self)
        cases (List.cons.inj hrest).1
        cases hc
    change textValue (whole ++ if fraction = [] then [] else '.' :: fraction) = _
    rw [hnosign, hvalue, signValue, if_neg (by decide), one_mul]

/-! ## Digits and their value -/

/-- Digits behind a positive number are the digits of the number they make with it. -/
theorem toDigits_append {digits : List Char} (h : ∀ c ∈ digits, c.isDigit = true) {n : Nat}
    (hn : 0 < n) :
    Nat.toDigits 10 n ++ digits = Nat.toDigits 10 (Nat.ofDigitChars 10 digits n) := by
  induction digits generalizing n with
  | nil => simp
  | cons c rest ih =>
    obtain ⟨hc, hrest⟩ := List.forall_mem_cons.mp h
    obtain ⟨d, hd, rfl⟩ := exists_digitChar hc
    rw [Nat.ofDigitChars_cons_digitChar_of_lt_ten hd, ← ih hrest (by omega),
      ← Nat.toDigits_append_toDigits (by omega) hn hd, Nat.toDigits_of_lt_base hd]
    simp

/-- **A whole number without a zero in front is written as its value is.** -/
theorem toDigits_ofDigitChars {whole : List Char} (h : ∀ c ∈ whole, c.isDigit = true)
    (hfirst : whole = ['0'] ∨ ∃ c rest, whole = c :: rest ∧ c ≠ '0') :
    Nat.toDigits 10 (Nat.ofDigitChars 10 whole 0) = whole := by
  rcases hfirst with rfl | ⟨c, rest, rfl, hne⟩
  · rfl
  · obtain ⟨hc, hrest⟩ := List.forall_mem_cons.mp h
    obtain ⟨d, hd, rfl⟩ := exists_digitChar hc
    have hpos : 0 < d := Nat.pos_of_ne_zero fun hzero => hne (Nat.digitChar_eq_zero.mpr hzero)
    rw [Nat.ofDigitChars_cons_digitChar_of_lt_ten hd, Nat.mul_zero, Nat.zero_add,
      ← toDigits_append hrest hpos, Nat.toDigits_of_lt_base hd]
    rfl

/-- As many digits with the same value are the same. -/
theorem eq_of_ofDigitChars_eq {first second : List Char} (hfirst : ∀ c ∈ first, c.isDigit = true)
    (hsecond : ∀ c ∈ second, c.isDigit = true) (hlength : first.length = second.length)
    (hvalue : Nat.ofDigitChars 10 first 0 = Nat.ofDigitChars 10 second 0) : first = second := by
  -- behind a one, no zero in front is lost
  have hone : Nat.toDigits 10 1 ++ first = Nat.toDigits 10 1 ++ second := by
    rw [toDigits_append hfirst Nat.one_pos, toDigits_append hsecond Nat.one_pos,
      Nat.ofDigitChars_eq_ofDigitChars_zero, hvalue, hlength,
      ← Nat.ofDigitChars_eq_ofDigitChars_zero]
  exact List.append_cancel_left hone

theorem ofDigitChars_lt {digits : List Char} (h : ∀ c ∈ digits, c.isDigit = true) :
    Nat.ofDigitChars 10 digits 0 < 10 ^ digits.length := by
  induction digits using List.reverseRecOn with
  | nil => simp
  | append_singleton rest c ih =>
    obtain ⟨hrest, hc⟩ := List.forall_mem_append.mp h
    obtain ⟨d, hd, rfl⟩ := exists_digitChar (hc c List.mem_cons_self)
    have hlt := ih hrest
    rw [Nat.ofDigitChars_append, Nat.ofDigitChars_cons_digitChar_of_lt_ten hd, Nat.ofDigitChars_nil,
      List.length_append, List.length_singleton, Nat.pow_succ]
    omega

theorem ofDigitChars_append_zeros (digits : List Char) (k : Nat) :
    Nat.ofDigitChars 10 (digits ++ List.replicate k '0') 0 =
      Nat.ofDigitChars 10 digits 0 * 10 ^ k := by
  rw [Nat.ofDigitChars_append, Nat.ofDigitChars_replicate_zero, Nat.mul_comm]

/-- A text without a character at its end, however often it stands there. -/
def trimEnd (c : Char) (text : List Char) : List Char :=
  (text.reverse.dropWhile (· == c)).reverse

/-- A character behind a text that does not end in it is all that is trimmed. -/
theorem trimEnd_append_replicate {c : Char} {text : List Char} (h : text.getLast? ≠ some c)
    (k : Nat) : trimEnd c (text ++ List.replicate k c) = text := by
  have hsame : ∀ d ∈ List.replicate k c, (d == c) = true := by
    intro d hd
    rw [List.eq_of_mem_replicate hd]
    exact beq_self_eq_true c
  rw [trimEnd, List.reverse_append, List.reverse_replicate, List.dropWhile_append_of_pos hsame]
  rcases List.eq_nil_or_concat text with rfl | ⟨front, last, rfl⟩
  · rfl
  · rw [List.concat_eq_append] at *
    have hlast : ¬(last == c) = true := by simpa using h
    rw [List.reverse_concat, List.dropWhile_cons_of_neg (p := (· == c)) hlast,
      ← List.reverse_concat, List.reverse_reverse]

theorem trimZeros_append_zeros {digits : List Char} (h : digits.getLast? ≠ some '0') (k : Nat) :
    trimZeros (digits ++ List.replicate k '0') = digits :=
  trimEnd_append_replicate h k

theorem isDigit_append_zeros {digits : List Char} (h : ∀ c ∈ digits, c.isDigit = true) (k : Nat) :
    ∀ c ∈ digits ++ List.replicate k '0', c.isDigit = true := by
  refine List.forall_mem_append.mpr ⟨h, fun c hc => ?_⟩
  rw [List.eq_of_mem_replicate hc]
  rfl

/-- **What is trimmed is zeros, and no zero is left.** -/
theorem trimZeros_spec (digits : List Char) :
    (∃ k, digits = trimZeros digits ++ List.replicate k '0') ∧
      (trimZeros digits).getLast? ≠ some '0' := by
  constructor
  · refine ⟨(digits.reverse.takeWhile (· == '0')).length, ?_⟩
    have hzeros : digits.reverse.takeWhile (· == '0') =
        List.replicate (digits.reverse.takeWhile (· == '0')).length '0' := by
      refine List.eq_replicate_iff.mpr ⟨rfl, fun c hc => ?_⟩
      exact eq_of_beq (List.mem_takeWhile_imp (p := (· == '0')) hc)
    rw [← List.reverse_inj, List.reverse_append, trimZeros, List.reverse_reverse,
      List.reverse_replicate, ← hzeros, List.takeWhile_append_dropWhile]
  · rw [trimZeros, List.getLast?_reverse]
    intro hzero
    have hhead := List.head?_dropWhile_not (· == '0') digits.reverse
    rw [hzero] at hhead
    cases hhead

/-! ## One spelling for each number -/

section Unique

variable {whole whole' fraction fraction' : List Char}

/-- The magnitude of a plain spelling tells its digits. -/
theorem Plain.eq_of_magnitude_eq (h : Plain whole fraction) (h' : Plain whole' fraction')
    (hvalue : magnitude whole fraction = magnitude whole' fraction') :
    whole = whole' ∧ fraction = fraction' := by
  -- both fractions with as many zeros behind as the other one has digits
  have hpadded : Nat.ofDigitChars 10 whole 0 * 10 ^ (fraction.length + fraction'.length) +
        Nat.ofDigitChars 10 (fraction ++ List.replicate fraction'.length '0') 0 =
      Nat.ofDigitChars 10 whole' 0 * 10 ^ (fraction.length + fraction'.length) +
        Nat.ofDigitChars 10 (fraction' ++ List.replicate fraction.length '0') 0 := by
    rw [ofDigitChars_append_zeros, ofDigitChars_append_zeros]
    rw [magnitude, magnitude] at hvalue
    field_simp at hvalue
    rw [pow_add]
    have hcast :
      (Nat.ofDigitChars 10 whole 0 : ℚ) * (10 ^ fraction.length * 10 ^ fraction'.length) +
        Nat.ofDigitChars 10 fraction 0 * 10 ^ fraction'.length =
      Nat.ofDigitChars 10 whole' 0 * (10 ^ fraction.length * 10 ^ fraction'.length) +
        Nat.ofDigitChars 10 fraction' 0 * 10 ^ fraction.length := by linarith
    exact_mod_cast hcast
  have hdigits : ∀ c ∈ fraction ++ List.replicate fraction'.length '0', c.isDigit = true :=
    isDigit_append_zeros h.fraction_digits _
  have hdigits' : ∀ c ∈ fraction' ++ List.replicate fraction.length '0', c.isDigit = true :=
    isDigit_append_zeros h'.fraction_digits _
  have hlt := ofDigitChars_lt hdigits
  have hlt' := ofDigitChars_lt hdigits'
  rw [List.length_append, List.length_replicate] at hlt hlt'
  rw [Nat.add_comm fraction'.length] at hlt'
  -- the whole parts are the quotients, and what is left are the fractions
  have hwhole : Nat.ofDigitChars 10 whole 0 = Nat.ofDigitChars 10 whole' 0 := by
    have hquotient := congrArg (· / 10 ^ (fraction.length + fraction'.length)) hpadded
    simp only [Nat.mul_comm _ (10 ^ (fraction.length + fraction'.length))] at hquotient
    rwa [Nat.mul_add_div (by positivity), Nat.mul_add_div (by positivity), Nat.div_eq_of_lt hlt,
      Nat.div_eq_of_lt hlt', Nat.add_zero, Nat.add_zero] at hquotient
  have hfraction : fraction ++ List.replicate fraction'.length '0' =
      fraction' ++ List.replicate fraction.length '0' := by
    refine eq_of_ofDigitChars_eq hdigits hdigits' ?_ ?_
    · simp [Nat.add_comm]
    · rw [hwhole] at hpadded
      exact Nat.add_left_cancel hpadded
  constructor
  · rw [← toDigits_ofDigitChars h.whole_digits h.whole_first, hwhole,
      toDigits_ofDigitChars h'.whole_digits h'.whole_first]
  · rw [← trimZeros_append_zeros h.fraction_last fraction'.length, hfraction,
      trimZeros_append_zeros h'.fraction_last]

theorem Plain.eq_zero (h : Plain whole fraction)
    (hvalue : magnitude whole fraction = 0) :
    whole = ['0'] ∧ fraction = [] := by
  have hzero : Plain ['0'] [] := ⟨by simp, Or.inl rfl, by simp, by simp⟩
  exact h.eq_of_magnitude_eq hzero (hvalue.trans (by simp [magnitude, Nat.ofDigitChars_cons]))

theorem signValue_ne_zero (minus : Bool) : signValue minus ≠ 0 := by
  cases minus <;> simp [signValue]

theorem magnitude_nonneg (whole fraction : List Char) :
    0 ≤ magnitude whole fraction := by
  rw [magnitude]
  positivity

/-- **A number has one plain spelling.** -/
theorem Spells.unique {first second : List Char} {q : ℚ} (hfirst : Spells first q)
    (hsecond : Spells second q) : first = second := by
  obtain ⟨hpattern, hne, hvalue⟩ := hfirst
  obtain ⟨hpattern', hne', hvalue'⟩ := hsecond
  obtain ⟨minus, whole, fraction, hplain, rfl⟩ := pattern_rmatch_iff.mp hpattern
  obtain ⟨minus', whole', fraction', hplain', rfl⟩ := pattern_rmatch_iff.mp hpattern'
  rw [textValue_spelled minus hplain] at hvalue
  rw [textValue_spelled minus' hplain'] at hvalue'
  have hsame := hvalue.trans hvalue'.symm
  -- the signs differ only if both magnitudes are zero, and zero has no sign
  by_cases hsign : minus = minus'
  · subst hsign
    have hmagnitude := mul_left_cancel₀ (signValue_ne_zero minus) hsame
    obtain ⟨rfl, rfl⟩ := hplain.eq_of_magnitude_eq hplain' hmagnitude
    rfl
  · have hopposite : signValue minus' = -signValue minus := by
      cases minus <;> cases minus' <;> simp_all [signValue]
    rw [hopposite, neg_mul, ← mul_neg] at hsame
    have hmagnitude := mul_left_cancel₀ (signValue_ne_zero minus) hsame
    have hnonneg := magnitude_nonneg whole fraction
    have hnonneg' := magnitude_nonneg whole' fraction'
    obtain ⟨rfl, rfl⟩ := hplain.eq_zero (by linarith)
    obtain ⟨rfl, rfl⟩ := hplain'.eq_zero (by linarith)
    cases minus
    · cases minus'
      · rfl
      · exact absurd rfl hne'
    · exact absurd rfl hne

end Unique

/-! ## Fixed decimals -/

/-- The digits of a number have no zero in front but that of zero itself. -/
theorem toDigits_first (n : Nat) :
    Nat.toDigits 10 n = ['0'] ∨ ∃ c rest, Nat.toDigits 10 n = c :: rest ∧ c ≠ '0' := by
  induction n using Nat.strongRecOn with
  | ind n ih =>
    by_cases hsmall : n < 10
    · rw [Nat.toDigits_of_lt_base hsmall]
      by_cases hzero : n = 0
      · exact Or.inl (by rw [hzero]; rfl)
      · exact Or.inr ⟨_, [], rfl, fun h => hzero (Nat.digitChar_eq_zero.mp h)⟩
    · rw [Nat.toDigits_of_base_le (by omega) (by omega)]
      rcases ih (n / 10) (by omega) with hfront | ⟨c, rest, hfront, hne⟩
      · -- only zero is written as zero
        have hvalue := congrArg (Nat.ofDigitChars 10 · 0) hfront
        simp only [Nat.ofDigitChars_ten_toDigits] at hvalue
        have : n / 10 = 0 := hvalue
        omega
      · exact Or.inr ⟨c, rest ++ [_], by rw [hfront]; rfl, hne⟩

theorem ofDigitChars_paddedDigits (width n : Nat) :
    Nat.ofDigitChars 10 (paddedDigits width n) 0 = n := by
  rw [paddedDigits, Nat.ofDigitChars_append, Nat.ofDigitChars_replicate_zero, Nat.mul_zero,
    Nat.ofDigitChars_ten_toDigits]

theorem length_paddedDigits {width n : Nat} (hwidth : 0 < width) (hn : n < 10 ^ width) :
    (paddedDigits width n).length = width := by
  have hlength := (Nat.length_toDigits_le_iff (b := 10) (by omega) hwidth).mpr hn
  simp only [paddedDigits, List.length_append, List.length_replicate]
  omega

/-- **The digits behind the point stand for what is left of the units**, and are no more than the
places. -/
theorem fractionDigits_spec (places units : Nat) :
    (Nat.ofDigitChars 10 (fractionDigits places units) 0 : ℚ) /
        10 ^ (fractionDigits places units).length = (units % 10 ^ places : ℕ) / 10 ^ places ∧
      (fractionDigits places units).length ≤ places := by
  obtain rfl | hplaces := Nat.eq_zero_or_pos places
  · have hnone : fractionDigits 0 units = [] := by
      rw [fractionDigits, Nat.pow_eq, Nat.pow_zero, Nat.mod_one]
      rfl
    rw [hnone]
    simp [Nat.mod_one]
  · have hless : units % 10 ^ places < 10 ^ places := Nat.mod_lt _ (by positivity)
    have hlength := length_paddedDigits hplaces hless
    have hvalue := ofDigitChars_paddedDigits places (units % 10 ^ places)
    obtain ⟨⟨k, hk⟩, -⟩ := trimZeros_spec (paddedDigits places (units % 10 ^ places))
    change _ = fractionDigits places units ++ _ at hk
    rw [hk, List.length_append, List.length_replicate] at hlength
    rw [hk, ofDigitChars_append_zeros] at hvalue
    refine ⟨?_, by omega⟩
    have hpower : (10 : ℚ) ^ places = 10 ^ (fractionDigits places units).length * 10 ^ k := by
      rw [← pow_add, hlength]
    rw [← hvalue, div_eq_div_iff (by positivity) (by positivity), hpower]
    push_cast
    ring

theorem plain_fixed (places units : Nat) :
    Plain (Nat.toDigits 10 (units / 10 ^ places)) (fractionDigits places units) where
  whole_digits _ hc := Nat.isDigit_of_mem_toDigits (by omega) (by omega) hc
  whole_first := toDigits_first _
  fraction_digits _ hc := Java.isDigit_of_mem_fractionDigits hc
  fraction_last := (trimZeros_spec _).2

theorem magnitude_fixed (places units : Nat) :
    magnitude (Nat.toDigits 10 (units / 10 ^ places)) (fractionDigits places units) =
      units / 10 ^ places := by
  rw [magnitude, (fractionDigits_spec places units).1, Nat.ofDigitChars_ten_toDigits]
  have hsplit := Nat.div_add_mod units (10 ^ places)
  field_simp
  exact_mod_cast (by rw [Nat.mul_comm]; exact hsplit)

theorem fixed_eq_spelled (minus : Bool) (units places : Nat) :
    fixed minus units places =
      spelled (minus && units != 0) (Nat.toDigits 10 (units / 10 ^ places))
        (fractionDigits places units) := by
  simp only [fixed, spelled, Nat.pow_eq]
  cases fractionDigits places units with
  | nil => simp
  | cons digit rest => simp

/-- **A fixed decimal is the plain spelling of its units.** -/
theorem spells_fixed (minus : Bool) (units places : Nat) :
    Spells (fixed minus units places) (signValue minus * units / 10 ^ places) := by
  have hplain := plain_fixed places units
  have hvalue := textValue_spelled (minus && units != 0) hplain
  rw [magnitude_fixed] at hvalue
  rw [fixed_eq_spelled]
  refine ⟨pattern_rmatch_iff.mpr ⟨_, _, _, hplain, rfl⟩, fun hzero => ?_, ?_⟩
  · -- the value of that text is zero, and the sign of zero is not written
    have hnone : units = 0 := by
      have htext : textValue ['-', '0'] = 0 := by
        simp [textValue, unsignedValue, behindPoint, Nat.ofDigitChars_cons]
      rw [hzero, htext] at hvalue
      have hquotient := (mul_eq_zero.mp hvalue.symm).resolve_left (signValue_ne_zero _)
      rw [div_eq_zero_iff] at hquotient
      exact_mod_cast hquotient.resolve_right (by positivity)
    rw [hnone] at hplain hzero
    obtain ⟨hwhole, hfraction⟩ := hplain.eq_zero (by rw [magnitude_fixed]; simp)
    rw [hwhole, hfraction] at hzero
    simp [spelled] at hzero
  · rw [hvalue, mul_div_assoc]
    obtain rfl | hunits := Nat.eq_zero_or_pos units
    · simp
    · rw [bne_iff_ne.mpr hunits.ne', Bool.and_true]

/-! ### In steps

The same text comes about in steps. All places are printed, with the sign of zero as well; if there
is a point, first zeros and then points are taken off the end; and zero loses its sign. -/

/-- Units of the last of so many places, all of them printed. -/
def printed (minus : Bool) (units places : Nat) : List Char :=
  (if minus then ['-'] else []) ++ Nat.toDigits 10 (units / 10 ^ places) ++
    if places = 0 then [] else '.' :: paddedDigits places (units % 10 ^ places)

/-- A printed number without idle zeros and an idle point. -/
def trimmed (text : List Char) : List Char :=
  if '.' ∈ text then trimEnd '.' (trimEnd '0' text) else text

/-- What is left of a printed number, and no sign in front of zero. -/
def tidied (text : List Char) : List Char :=
  if trimmed text = ['-', '0'] then ['0'] else trimmed text

theorem trimmed_printed (minus : Bool) (units places : Nat) :
    trimmed (printed minus units places) =
      spelled minus (Nat.toDigits 10 (units / 10 ^ places)) (fractionDigits places units) := by
  have hplain := plain_fixed places units
  obtain rfl | hplaces := Nat.eq_zero_or_pos places
  · have hnone : fractionDigits 0 units = [] :=
      List.eq_nil_of_length_eq_zero (Nat.le_zero.mp (fractionDigits_spec 0 units).2)
    rw [hnone] at hplain ⊢
    change trimmed (spelled minus _ []) = _
    rw [trimmed, if_neg]
    exact fun hpoint => (hplain.point_mem_iff minus).mp hpoint rfl
  · obtain ⟨⟨k, hk⟩, -⟩ := trimZeros_spec (paddedDigits places (units % 10 ^ places))
    change _ = fractionDigits places units ++ _ at hk
    rw [printed, hk, if_neg hplaces.ne']
    generalize Nat.toDigits 10 (units / 10 ^ places) = whole at hplain ⊢
    generalize fractionDigits places units = fraction at hplain ⊢
    have hzeros : trimEnd '0' ((if minus then ['-'] else []) ++ whole ++
        '.' :: (fraction ++ List.replicate k '0')) =
          (if minus then ['-'] else []) ++ whole ++ '.' :: fraction := by
      rw [← List.cons_append, ← List.append_assoc]
      refine trimEnd_append_replicate ?_ k
      rcases List.eq_nil_or_concat fraction with rfl | ⟨digits, last, rfl⟩
      · simp
      · simpa [List.getLast?_append, List.getLast?_cons] using hplain.fraction_last
    rw [trimmed, if_pos (by simp), hzeros]
    by_cases hnil : fraction = []
    · subst hnil
      have hfront : (spelled minus whole []).getLast? ≠ some '.' := fun hlast =>
        (hplain.point_mem_iff minus).mp (List.mem_of_getLast? hlast) rfl
      simpa [spelled] using trimEnd_append_replicate hfront 1
    · have hpoint := (hplain.point_mem_iff minus).mpr hnil
      have hlast := hplain.getLast?_ne minus hpoint (Or.inr rfl)
      simpa [spelled, hnil] using trimEnd_append_replicate hlast 0

/-- **Fixed decimals come about in steps.** -/
theorem tidied_printed (minus : Bool) (units places : Nat) :
    tidied (printed minus units places) = fixed minus units places := by
  have hfixed := (spells_fixed minus units places).2.1
  rw [tidied, trimmed_printed]
  rw [fixed_eq_spelled] at hfixed ⊢
  by_cases hsign : (minus && units != 0) = minus
  · rw [hsign] at hfixed ⊢
    rw [if_neg hfixed]
  · -- the sign is left out only of zero
    have hminus : minus = true := by
      by_contra hplus
      rw [Bool.not_eq_true] at hplus
      exact hsign (by rw [hplus]; rfl)
    have hunits : units = 0 := by
      by_contra hunits
      exact hsign (by rw [bne_iff_ne.mpr hunits, Bool.and_true])
    obtain ⟨hwhole, hfraction⟩ := (plain_fixed places units).eq_zero (by
      rw [magnitude_fixed, hunits]
      simp)
    rw [hwhole, hfraction, hminus, hunits]
    rfl

end Decimal

/-! ## The text of a number -/

namespace Java

open Decimal (Spells spelled behindPoint)

variable {precision : ℕ} {x y : Binary64} {n : ℤ}

theorem toList_numberText (hfinite : x.isFinite = true) :
    (numberText precision x).toList =
      spelled (x.negative && x.scaled precision != 0)
        (Nat.toDigits 10 (x.scaled precision / 10 ^ precision))
        (Decimal.fractionDigits precision (x.scaled precision)) := by
  rw [numberText, if_pos hfinite, String.toList_ofList, Decimal.fixed_eq_spelled]

/-- **The text of a number is the plain spelling of what it is rounded to.** -/
theorem spells_numberText (hfinite : x.isFinite = true) (h : x.RoundsTo precision n) :
    Spells (numberText precision x).toList (n / 10 ^ precision) := by
  have hfixed := Decimal.spells_fixed x.negative (x.scaled precision) precision
  have hcount := h.unique (x.roundsTo_scaled precision)
  have hvalue : (n : ℚ) = Decimal.signValue x.negative * x.scaled precision := by
    rw [hcount, Decimal.signValue]
    split <;> simp
  rw [numberText, if_pos hfinite, String.toList_ofList, hvalue]
  exact hfixed

/-- Finite numbers have one text exactly if they are rounded to one count of units. -/
theorem numberText_eq_iff (hx : x.isFinite = true) (hy : y.isFinite = true)
    (h : x.RoundsTo precision n) :
    numberText precision y = numberText precision x ↔ y.RoundsTo precision n := by
  constructor
  · intro htext
    have hy' := y.roundsTo_scaled precision
    have hspells := spells_numberText hy hy'
    rw [htext] at hspells
    -- one text has one value
    have hvalue := hspells.2.2.symm.trans (spells_numberText hx h).2.2
    rw [div_left_inj' (by positivity)] at hvalue
    rwa [← Int.cast_injective hvalue]
  · intro hround
    exact String.toList_injective ((spells_numberText hy hround).unique (spells_numberText hx h))

/-- **A number is written as the one plain spelling of what it is rounded to**, as long as its
places can be written: what it is rounded to is printed with its sign and all places, and tidied up.
The spelling has no more digits behind the point than places, and what is rounded to the same count
of units has the same text. More places than that are refused, and what is no finite number is
written as zero with any number of them. -/
theorem number_text_is_rounding (precision : ℕ) (x : Binary64) :
    (x.isFinite = true → precision ≤ maxPrecision →
      ∃ text n, numberText? precision x = some text ∧ x.RoundsTo precision n ∧
        text.toList = Decimal.tidied (Decimal.printed x.negative n.natAbs precision) ∧
        (∀ letters, Spells letters (n / 10 ^ precision) ↔ letters = text.toList) ∧
        (behindPoint text.toList).length ≤ precision ∧
        ('.' ∈ text.toList →
          text.toList.getLast? ≠ some '0' ∧ text.toList.getLast? ≠ some '.') ∧
        text ≠ "-0" ∧
        ∀ y : Binary64, y.isFinite = true →
          (numberText? precision y = some text ↔ y.RoundsTo precision n)) ∧
    (x.isFinite = true → maxPrecision < precision → numberText? precision x = none) ∧
    (x.isFinite = false → numberText? precision x = some "0") := by
  refine ⟨fun hfinite hplaces => ?_, fun hfinite hplaces => ?_, fun hinfinite => ?_⟩
  · have hround := x.roundsTo_scaled precision
    have hspells := spells_numberText hfinite hround
    have hplain := Decimal.plain_fixed precision (x.scaled precision)
    refine ⟨numberText precision x, _, numberText?_of_le hplaces x, hround, ?_, fun letters => ?_,
      ?_, fun hpoint => ?_, ?_, fun y hy => ?_⟩
    · have hunits : ((if x.negative then -1 else 1) * (x.scaled precision : ℤ)).natAbs =
          x.scaled precision := by
        split <;> simp
      rw [hunits, Decimal.tidied_printed, numberText, if_pos hfinite, String.toList_ofList]
    · exact ⟨fun h => h.unique hspells, fun h => h ▸ hspells⟩
    · rw [toList_numberText hfinite, hplain.behindPoint_eq]
      exact (Decimal.fractionDigits_spec precision (x.scaled precision)).2
    · rw [toList_numberText hfinite] at hpoint ⊢
      exact ⟨hplain.getLast?_ne _ hpoint (Or.inl rfl), hplain.getLast?_ne _ hpoint (Or.inr rfl)⟩
    · intro htext
      exact hspells.2.1 (congrArg String.toList htext)
    · rw [numberText?_of_le hplaces, Option.some_inj]
      exact numberText_eq_iff hfinite hy hround
  · simp [numberText?, hfinite, hplaces]
  · simp [numberText?, numberText, hinfinite]

/-- A negative tie: minus an eighth lies between two hundredths and goes to the even one. -/
theorem number_text_is_rounding_tie :
    let x : Binary64 := ⟨0xbfc0000000000000⟩
    x.isFinite = true ∧ 2 ≤ maxPrecision ∧ x.RoundsTo 2 (-12) ∧
      ∀ letters, Spells letters (((-12 : ℤ) : ℚ) / 10 ^ 2) ↔
        letters = ['-', '0', '.', '1', '2'] := by
  intro x
  have hfinite : x.isFinite = true := by decide
  have hplaces : 2 ≤ maxPrecision := by decide
  obtain ⟨text, n, htext, hround, -, hspells, -⟩ :=
    (number_text_is_rounding 2 x).1 hfinite hplaces
  have hwritten : numberText? 2 x = some "-0.12" := by decide
  obtain rfl : "-0.12" = text := Option.some_inj.mp (hwritten.symm.trans htext)
  have hcount : (if x.negative then -1 else 1) * (x.scaled 2 : ℤ) = -12 := by decide
  obtain rfl : -12 = n := hcount ▸ (x.roundsTo_scaled 2).unique hround
  exact ⟨hfinite, hplaces, hround, hspells⟩

/-- A half has a plain spelling at any number of places, but with `65536` of them it is not
written. -/
theorem half_refused_beyond_limit :
    let half : Binary64 := ⟨0x3fe0000000000000⟩
    half.isFinite = true ∧ half.RoundsTo 65536 (5 * 10 ^ 65535) ∧
      Spells ['0', '.', '5'] half.value ∧ numberText? 65536 half = none := by
  intro half
  have hvalue : half.value = 1 / 2 := by
    have hnegative : half.negative = false := by decide
    have hsignificand : half.significand = 2 ^ 52 := by decide
    have hexponent : half.exponent = -53 := by decide
    rw [Binary64.value, hnegative, hsignificand, hexponent]
    norm_num
  have hround : ∀ k, half.RoundsTo (k + 1) (5 * 10 ^ k) := by
    intro k
    have hexact : half.value * 10 ^ (k + 1) - ((5 * 10 ^ k : ℤ) : ℚ) = 0 := by
      rw [hvalue, pow_succ]
      push_cast
      ring
    rw [Binary64.RoundsTo, NearestEven, hexact, abs_zero]
    exact ⟨by norm_num, fun htie => absurd htie (by norm_num)⟩
  refine ⟨by decide, hround 65535, ⟨by decide, by decide, ?_⟩, by decide⟩
  rw [hvalue]
  simp [Decimal.textValue, Decimal.unsignedValue, behindPoint, Nat.ofDigitChars_cons]
  norm_num

end Java

end NetScribe
