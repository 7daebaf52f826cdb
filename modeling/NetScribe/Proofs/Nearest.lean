import NetScribe.Proofs.Decimals

/-!
# The nearest number

`Nearest` says that no finite number is nearer to a rational. A quotient is rounded to a whole
number of units of its binade (`Rounded`). All numbers from the binade upwards are whole numbers of
these units, so none of them is nearer; those below are below the smallest number of the binade,
which is a whole number of units as well (`Rounded.near_magnitude`). Pattern by pattern the result
is the number with the chosen significand and exponent (`magnitude_of_fields`): one that is rounded
up to the next power of two is the smallest of the next binade. So `nearest` gives a nearest number
whenever the quotient is no larger than the largest one (`nearest_of_le`).
-/

namespace NetScribe

namespace Binary64

/-- A finite number such that no other is nearer to `q`. -/
def Nearest (q : ℚ) (x : Binary64) : Prop :=
  x.isFinite = true ∧ ∀ y : Binary64, y.isFinite = true → |x.value - q| ≤ |y.value - q|

/-- What a pattern stands for, without its sign. -/
def magnitude (x : Binary64) : ℚ := x.significand * 2 ^ x.exponent

theorem magnitude_nonneg (x : Binary64) : 0 ≤ x.magnitude := by
  unfold magnitude
  positivity

theorem value_eq_magnitude (x : Binary64) :
    x.value = (if x.negative then -1 else 1) * x.magnitude := by
  rw [value, magnitude, mul_assoc]

theorem abs_value (x : Binary64) : |x.value| = x.magnitude := by
  have hsign : |(if x.negative then -1 else 1 : ℚ)| = 1 := by split <;> simp
  rw [value_eq_magnitude, abs_mul, hsign, one_mul, abs_of_nonneg x.magnitude_nonneg]

/-! ## Significands and exponents -/

/-- The unit of the last place in a binade, counted from the lowest. -/
def unit (b : ℕ) : ℚ := 2 ^ ((b : ℤ) - 1074)

theorem unit_pos (b : ℕ) : 0 < unit b := by
  unfold unit
  positivity

theorem unit_succ (b : ℕ) : unit (b + 1) = 2 * unit b := by
  rw [unit, unit, ← zpow_one_add₀ two_ne_zero]
  congr 1
  omega

theorem unit_mono {b c : ℕ} (h : b ≤ c) : unit b ≤ unit c :=
  zpow_le_zpow_right₀ one_le_two (by omega)

theorem significand_lt (x : Binary64) : x.significand < 2 ^ 53 := by
  have hfraction : x.fraction < 2 ^ 52 := Nat.mod_lt _ (by decide)
  rw [significand, Nat.pow_eq]
  split <;> omega

theorem le_exponent (x : Binary64) : -1074 ≤ x.exponent := by
  rw [exponent]
  omega

/-- A number has at most fifty-three binary digits of the unit of its binade. -/
theorem magnitude_le_of_exponent {x : Binary64} {b : ℕ} (h : x.exponent ≤ (b : ℤ) - 1074) :
    x.magnitude ≤ (2 ^ 53 - 1) * unit b := by
  have hsignificand : (x.significand : ℚ) ≤ 2 ^ 53 - 1 := by
    have hless : x.significand + 1 ≤ 2 ^ 53 := x.significand_lt
    have hless : (x.significand : ℚ) + 1 ≤ 2 ^ 53 := by exact_mod_cast hless
    linarith
  have hpower : (2 : ℚ) ^ x.exponent ≤ unit b := zpow_le_zpow_right₀ one_le_two h
  rw [magnitude]
  exact mul_le_mul hsignificand hpower (by positivity) (by norm_num)

/-- No finite number is larger. -/
theorem magnitude_le {x : Binary64} (h : x.isFinite = true) :
    x.magnitude ≤ (2 ^ 53 - 1) * unit 2045 := by
  have hfield : x.exponentField < 2048 := Nat.mod_lt _ (by decide)
  have hother : x.exponentField ≠ 2047 := by simpa [isFinite] using h
  refine magnitude_le_of_exponent ?_
  rw [exponent]
  omega

/-- The number of a significand and an exponent, where the significand may be one too large. -/
theorem magnitude_of_fields {x : Binary64} {b m : ℕ} (hfield : x.exponentField = b + m / 2 ^ 52)
    (hfraction : x.fraction = m % 2 ^ 52) (hm : m ≤ 2 ^ 53) (hlow : m < 2 ^ 52 → b = 0) :
    x.magnitude = m * unit b := by
  rw [magnitude, unit, significand, exponent, hfield, hfraction, Nat.pow_eq]
  rcases Nat.lt_or_ge m (2 ^ 52) with hsmall | hlarge
  · have hb := hlow hsmall
    have hzero : m / 2 ^ 52 = 0 := Nat.div_eq_of_lt hsmall
    rw [hb, hzero, if_pos rfl, Nat.mod_eq_of_lt hsmall]
    norm_num
  rcases Nat.lt_or_ge m (2 ^ 53) with hless | hmore
  · have hone : m / 2 ^ 52 = 1 := by omega
    have hrest : m % 2 ^ 52 + 2 ^ 52 = m := by omega
    have hexponent : ((max (b + 1) 1 : ℕ) : ℤ) - 1075 = b - 1074 := by omega
    rw [hone, if_neg (Nat.succ_ne_zero b), hrest, hexponent]
  · -- the smallest number of the next binade
    obtain rfl : m = 2 ^ 53 := Nat.le_antisymm hm hmore
    have htwo : (2 ^ 53 / 2 ^ 52 : ℕ) = 2 := by norm_num
    have hrest : (2 ^ 53 % 2 ^ 52 : ℕ) + 2 ^ 52 = 2 ^ 52 := by norm_num
    have hexponent : ((max (b + 2) 1 : ℕ) : ℤ) - 1075 = 1 + (b - 1074) := by omega
    rw [htwo, if_neg (Nat.succ_ne_zero _), hrest, hexponent, zpow_add₀ two_ne_zero]
    push_cast
    ring

/-- The fields of a pattern made of a sign and the other bits. -/
theorem fields_ofNat {bits : ℕ} (h : bits < 2 ^ 63) (minus : Bool) :
    let x : Binary64 := ⟨UInt64.ofNat (bits + if minus then Nat.pow 2 63 else 0)⟩
    x.negative = minus ∧ x.exponentField = bits / 2 ^ 52 ∧ x.fraction = bits % 2 ^ 52 := by
  intro x
  have hbits : x.bits.toNat = bits + if minus then 2 ^ 63 else 0 := by
    rw [UInt64.toNat_ofNat', Nat.pow_eq]
    exact Nat.mod_eq_of_lt (by split <;> omega)
  rw [negative, exponentField, fraction, Nat.pow_eq, Nat.pow_eq, Nat.pow_eq]
  by_cases hminus : minus = true
  · rw [if_pos hminus] at hbits
    rw [hbits, hminus]
    exact ⟨decide_eq_true (by omega), by omega, by omega⟩
  · rw [if_neg hminus] at hbits
    rw [hbits, Bool.eq_false_iff.mpr hminus]
    exact ⟨decide_eq_false (by omega), by omega, by omega⟩

/-! ## The binade of a quotient -/

theorem two_zpow_eq_div (e : ℤ) : (2 : ℚ) ^ e = 2 ^ e.toNat / 2 ^ (-e).toNat := by
  obtain h | h := Int.le_total 0 e
  · obtain ⟨n, rfl⟩ := Int.eq_ofNat_of_zero_le h
    simp
  · obtain ⟨n, hn⟩ := Int.eq_ofNat_of_zero_le (Int.neg_nonneg.mpr h)
    have hzero : e.toNat = 0 := by omega
    have hself : e = -(n : ℤ) := by omega
    rw [hzero, hn, Int.toNat_natCast, hself, zpow_neg, zpow_natCast, pow_zero, one_div]

/-- A positive integer lies between powers of two. -/
theorem log2_bounds {n : ℕ} (h : 0 < n) :
    (2 : ℚ) ^ (n.log2 : ℤ) ≤ n ∧ (n : ℚ) < 2 ^ ((n.log2 : ℤ) + 1) := by
  constructor
  · rw [zpow_natCast]
    exact_mod_cast Nat.log2_self_le h.ne'
  · have hless : n < 2 ^ (n.log2 + 1) := Nat.lt_log2_self
    rw [← Nat.cast_succ, zpow_natCast]
    exact_mod_cast hless

/-- **A quotient lies in the binade that is found for it.** -/
theorem floorLog2_bounds {num den : ℕ} (hnum : 0 < num) (hden : 0 < den) :
    (2 : ℚ) ^ floorLog2 num den ≤ num / den ∧
      (num / den : ℚ) < 2 ^ (floorLog2 num den + 1) := by
  have hpos : (0 : ℚ) < den := by exact_mod_cast hden
  obtain ⟨hnumLow, hnumHigh⟩ := log2_bounds hnum
  obtain ⟨hdenLow, hdenHigh⟩ := log2_bounds hden
  set guess : ℤ := (num.log2 : ℤ) - den.log2 with hguess
  -- the guess is right or one too large
  have habove : (num / den : ℚ) < 2 ^ (guess + 1) := by
    rw [div_lt_iff₀ hpos]
    calc (num : ℚ) < 2 ^ ((num.log2 : ℤ) + 1) := hnumHigh
      _ = 2 ^ (guess + 1) * 2 ^ (den.log2 : ℤ) := by
        rw [← zpow_add₀ two_ne_zero]
        congr 1
        omega
      _ ≤ 2 ^ (guess + 1) * den := by gcongr
  have hbelow : (2 : ℚ) ^ (guess - 1) ≤ num / den := by
    rw [le_div_iff₀ hpos]
    calc (2 : ℚ) ^ (guess - 1) * den ≤ 2 ^ (guess - 1) * 2 ^ ((den.log2 : ℤ) + 1) := by gcongr
      _ = 2 ^ (num.log2 : ℤ) := by
        rw [← zpow_add₀ two_ne_zero]
        congr 1
        omega
      _ ≤ num := hnumLow
  have hcheck : den * 2 ^ guess.toNat ≤ num * 2 ^ (-guess).toNat ↔
      (2 : ℚ) ^ guess ≤ num / den := by
    rw [two_zpow_eq_div, div_le_div_iff₀ (by positivity) hpos, mul_comm den]
    exact_mod_cast Iff.rfl
  rw [floorLog2, ← hguess]
  simp only [Nat.pow_eq, hcheck]
  split
  · next hright => exact ⟨hright, habove⟩
  · next hwrong => exact ⟨hbelow, by rw [sub_add_cancel]; exact not_le.mp hwrong⟩

/-! ## Rounding to units of a binade -/

/-- A quotient is rounded to `m` units of binade `b`: it has no more than fifty-three binary digits
in front of the point when counted in these units, and no fewer unless the binade is the lowest. -/
structure Rounded (r : ℚ) (m b : ℕ) : Prop where
  near : |r / unit b - m| ≤ 1 / 2
  below : r / unit b < 2 ^ 53
  above : 0 < b → 2 ^ 52 ≤ r / unit b

/-- **What `nearestMagnitude` rounds to.** -/
theorem exists_rounded {num den : ℕ} (hnum : 0 < num) (hden : 0 < den) :
    ∃ m b, Rounded (num / den) m b ∧
      nearestMagnitude num den = min (b * 2 ^ 52 + m) (2047 * 2 ^ 52) := by
  obtain ⟨hlow, hhigh⟩ := floorLog2_bounds hnum hden
  set k := floorLog2 num den with hk
  set q := max (k - 52) (-1074) with hq
  obtain ⟨b, hb⟩ : ∃ b : ℕ, q = (b : ℤ) - 1074 := ⟨(q + 1074).toNat, by omega⟩
  have hunit : unit b = 2 ^ q := by rw [unit, hb]
  have hquotient : ((num * 2 ^ (-q).toNat : ℕ) : ℚ) / (den * 2 ^ q.toNat : ℕ) =
      num / den / unit b := by
    rw [hunit, two_zpow_eq_div]
    push_cast
    field_simp
  have hround := nearestEven_roundHalfEven (num * 2 ^ (-q).toNat)
    (Nat.mul_pos hden (Nat.two_pow_pos q.toNat))
  rw [hquotient] at hround
  refine ⟨_, b, ⟨by simpa using hround.1, ?_, fun hpos => ?_⟩, ?_⟩
  · rw [div_lt_iff₀ (unit_pos b), hunit]
    calc (num / den : ℚ) < 2 ^ (k + 1) := hhigh
      _ ≤ 2 ^ (53 + q) := zpow_le_zpow_right₀ one_le_two (by omega)
      _ = 2 ^ 53 * 2 ^ q := by rw [zpow_add₀ two_ne_zero]; norm_num
  · have hexact : k = 52 + q := by omega
    rw [le_div_iff₀ (unit_pos b), hunit]
    calc (2 : ℚ) ^ 52 * 2 ^ q = 2 ^ k := by rw [hexact, zpow_add₀ two_ne_zero]; norm_num
      _ ≤ num / den := hlow
  · have hcount : (q + 1074).toNat = b := by omega
    rw [nearestMagnitude, if_neg hnum.ne']
    simp only [← hk, ← hq, hcount, Nat.pow_eq]

/-- How far a number of units is from another number, counted in units. -/
theorem abs_mul_sub {u : ℚ} (hu : 0 < u) (s r : ℚ) : |s * u - r| = |s - r / u| * u := by
  have hsub : s * u - r = (s - r / u) * u := by rw [sub_mul, div_mul_cancel₀ _ hu.ne']
  rw [hsub, abs_mul, abs_of_pos hu]

/-- No integer is nearer than one within a half. -/
theorem near_of_integer {t : ℚ} {m : ℕ} (h : |t - m| ≤ 1 / 2) (j : ℕ) :
    |(m : ℚ) - t| ≤ |(j : ℚ) - t| := by
  by_cases hj : j = m
  · rw [hj]
  · have hapart : (1 : ℚ) ≤ |(j : ℚ) - m| := by
      have hint : 1 ≤ |(j : ℤ) - m| := Int.one_le_abs (sub_ne_zero.mpr (by exact_mod_cast hj))
      exact_mod_cast hint
    have htriangle : |(j : ℚ) - m| ≤ |(j : ℚ) - t| + |t - m| := abs_sub_le _ _ _
    rw [abs_sub_comm]
    linarith

namespace Rounded

variable {r : ℚ} {m b : ℕ}

theorem le (h : Rounded r m b) : m ≤ 2 ^ 53 := by
  have hnear := (abs_le.mp h.near).1
  have hless : (m : ℚ) < 2 ^ 53 + 1 := by
    have hbelow := h.below
    linarith
  have hless : m < 2 ^ 53 + 1 := by exact_mod_cast hless
  exact Nat.le_of_lt_succ hless

theorem ge (h : Rounded r m b) (hpos : 0 < b) : 2 ^ 52 ≤ m := by
  have hnear := (abs_le.mp h.near).2
  have habove := h.above hpos
  have hmore : (2 ^ 52 : ℚ) < m + 1 := by linarith
  have hmore : 2 ^ 52 < m + 1 := by exact_mod_cast hmore
  exact Nat.le_of_lt_succ hmore

/-- What is no larger than the largest number is rounded to a number. -/
theorem bits_lt (h : Rounded r m b) (hr : r ≤ (2 ^ 53 - 1) * unit 2045) :
    b * 2 ^ 52 + m < 2047 * 2 ^ 52 := by
  have hm := h.le
  have hunit := unit_pos b
  rcases Nat.lt_or_ge b 2045 with hlow | hhigh
  · omega
  -- in the last binade there is room for all but one significand
  have hlast : b ≤ 2045 := by
    by_contra hhigher
    have hdouble : 2 * unit 2045 ≤ unit b := unit_succ 2045 ▸ unit_mono (by omega)
    have hlarge : (2 : ℚ) ^ 52 * unit b ≤ r := (le_div_iff₀ hunit).mp (h.above (by omega))
    have hpos := unit_pos 2045
    linarith
  obtain rfl : b = 2045 := Nat.le_antisymm hlast hhigh
  have hcount : r / unit 2045 ≤ 2 ^ 53 - 1 := (div_le_iff₀ hunit).mpr hr
  have hnear := (abs_le.mp h.near).1
  have hless : (m : ℚ) < 2 ^ 53 := by linarith
  have hless : m < 2 ^ 53 := by exact_mod_cast hless
  omega

/-- **No number is nearer than the one it is rounded to.** -/
theorem near_magnitude (h : Rounded r m b) (y : Binary64) :
    |m * unit b - r| ≤ |y.magnitude - r| := by
  have hunit := unit_pos b
  -- in units of the binade
  have hself : y.magnitude = y.magnitude / unit b * unit b := by field_simp
  rw [hself, abs_mul_sub hunit, abs_mul_sub hunit]
  refine mul_le_mul_of_nonneg_right ?_ hunit.le
  rcases Int.lt_or_le y.exponent ((b : ℤ) - 1074) with hlow | hhigh
  · -- below the binade, and so below its smallest number
    have hlowest := y.le_exponent
    obtain ⟨c, rfl⟩ : ∃ c, b = c + 1 := ⟨b - 1, by omega⟩
    have habove := h.above (Nat.succ_pos c)
    have hsmall : y.magnitude / unit (c + 1) ≤ 2 ^ 52 := by
      have hmagnitude : y.magnitude ≤ (2 ^ 53 - 1) * unit c :=
        magnitude_le_of_exponent (by omega)
      have hpos := unit_pos c
      rw [div_le_iff₀ hunit, unit_succ]
      linarith
    set u := unit (c + 1)
    have hinteger : |(m : ℚ) - r / u| ≤ |2 ^ 52 - r / u| := by
      have hpower : ((2 ^ 52 : ℕ) : ℚ) = 2 ^ 52 := by norm_num
      exact hpower ▸ near_of_integer h.near (2 ^ 52)
    calc |(m : ℚ) - r / u| ≤ |2 ^ 52 - r / u| := hinteger
      _ = r / u - 2 ^ 52 := by rw [abs_sub_comm, abs_of_nonneg (sub_nonneg.mpr habove)]
      _ ≤ r / u - y.magnitude / u := sub_le_sub_left hsmall _
      _ ≤ |y.magnitude / u - r / u| := by
        rw [abs_sub_comm]
        exact le_abs_self _
  · -- from the binade upwards numbers are whole
    obtain ⟨n, hn⟩ := Int.eq_ofNat_of_zero_le (sub_nonneg.mpr hhigh)
    have hwhole : y.magnitude / unit b = (y.significand * 2 ^ n : ℕ) := by
      have hexponent : y.exponent = n + ((b : ℤ) - 1074) := by omega
      rw [div_eq_iff hunit.ne', magnitude, unit, hexponent, zpow_add₀ two_ne_zero, zpow_natCast]
      push_cast
      ring
    rw [hwhole]
    exact near_of_integer h.near _

end Rounded

/-! ## The number nearest to a quotient -/

variable {num den : ℕ}

theorem magnitude_nearest (minus : Bool) (hden : 0 < den)
    (hrange : (num / den : ℚ) ≤ (2 ^ 53 - 1) * unit 2045) :
    (nearest minus num den).isFinite = true ∧ (nearest minus num den).negative = minus ∧
      ∀ y : Binary64, |(nearest minus num den).magnitude - num / den| ≤
        |y.magnitude - num / den| := by
  rcases Nat.eq_zero_or_pos num with rfl | hnum
  · have hzero : nearestMagnitude 0 den = 0 := rfl
    obtain ⟨hsign, hfield, hfraction⟩ := fields_ofNat (Nat.two_pow_pos 63) minus
    rw [nearest, hzero]
    refine ⟨?_, hsign, fun y => ?_⟩
    · rw [isFinite, hfield]
      rfl
    · have hmagnitude := magnitude_of_fields (b := 0) (m := 0) hfield hfraction (by norm_num)
        fun _ => rfl
      rw [hmagnitude]
      simp
  · obtain ⟨m, b, hrounded, hmagnitude⟩ := exists_rounded hnum hden
    have hbits := hrounded.bits_lt hrange
    have hm := hrounded.le
    rw [min_eq_left hbits.le] at hmagnitude
    obtain ⟨hsign, hfield, hfraction⟩ := fields_ofNat (hbits.trans (by norm_num)) minus
    rw [nearest, hmagnitude]
    refine ⟨?_, hsign, fun y => ?_⟩
    · have hother : (b * 2 ^ 52 + m) / 2 ^ 52 ≠ 2047 := by omega
      rw [isFinite, hfield]
      exact bne_iff_ne.mpr hother
    · have hvalue := magnitude_of_fields (b := b) (m := m) (hfield.trans (by omega))
        (hfraction.trans (by omega)) hm fun hsmall => by
          by_contra hpos
          exact absurd (hrounded.ge (Nat.pos_of_ne_zero hpos)) (Nat.not_le.mpr hsmall)
      rw [hvalue]
      exact hrounded.near_magnitude y

/-- **The number `nearest` gives is a nearest one**, unless the quotient is too large. -/
theorem nearest_of_le (minus : Bool) (hden : 0 < den) {x : Binary64} (hx : x.isFinite = true)
    (hrange : (num / den : ℚ) ≤ x.magnitude) :
    Nearest ((if minus then -1 else 1) * (num / den)) (nearest minus num den) := by
  obtain ⟨hfinite, hsign, hnear⟩ := magnitude_nearest minus hden (hrange.trans (magnitude_le hx))
  refine ⟨hfinite, fun y _ => ?_⟩
  have hpos : (0 : ℚ) ≤ num / den := by positivity
  have hunit : |(if minus then -1 else 1 : ℚ)| = 1 := by split <;> simp
  have hsize : |(if minus then -1 else 1 : ℚ) * (num / den)| = num / den := by
    rw [abs_mul, hunit, one_mul, abs_of_nonneg hpos]
  -- the sign is the right one, and another sign would only lead further away
  calc |(nearest minus num den).value - (if minus then -1 else 1) * (num / den)|
      = |(nearest minus num den).magnitude - num / den| := by
        rw [value_eq_magnitude, hsign, ← mul_sub, abs_mul, hunit, one_mul]
    _ ≤ |y.magnitude - num / den| := hnear y
    _ = |(|y.value| - |(if minus then -1 else 1 : ℚ) * (num / den)|)| := by rw [abs_value, hsize]
    _ ≤ |y.value - (if minus then -1 else 1) * (num / den)| := abs_abs_sub_abs_le _ _

/-- A number nearest to a rational. -/
def nearestTo (q : ℚ) : Binary64 := nearest (decide (q < 0)) q.num.natAbs q.den

/-- **Every rational that is not too large has a nearest number.** -/
theorem nearest_nearestTo {q : ℚ} {x : Binary64} (hx : x.isFinite = true)
    (hrange : |q| ≤ |x.value|) : Nearest q (nearestTo q) := by
  have hsize : (q.num.natAbs / q.den : ℚ) = |q| := by
    rw [Nat.cast_natAbs, Int.cast_abs, ← abs_of_nonneg (Nat.cast_nonneg q.den : (0 : ℚ) ≤ q.den),
      ← abs_div, Rat.num_div_den]
  have hsign : (if decide (q < 0) = true then -1 else 1 : ℚ) * |q| = q := by
    by_cases hneg : q < 0
    · simp [hneg, abs_of_neg]
    · simp [hneg, abs_of_nonneg (not_lt.mp hneg)]
  rw [abs_value, ← hsize] at hrange
  have hnearest := nearest_of_le (decide (q < 0)) q.den_pos hx hrange
  rwa [hsize, hsign] at hnearest

end Binary64

end NetScribe
