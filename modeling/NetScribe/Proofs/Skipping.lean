import NetScribe.Proofs.Decimals
import NetScribe.Proofs.Values

/-!
# Values passed over

A value under an unknown key is not read, only passed over, and nothing limits its brackets. That
the text of every value is passed over exactly (`skipValue_chars`) needs the grammar of its numbers,
because a number ends where its characters do: `Unsigned` is a number without its sign, and the text
of every integer and of every finite number is one behind its sign (`numeric_integerChars`,
`numeric_floatChars`). For the fewest digits this takes no more than that zero is in the interval of
no other number.

Brackets are passed over without recursion: a round passes the start of a value, and then closes
brackets until another value is due. `PassedOver` says what some rounds make of a value under any
brackets: they end up behind it, where those brackets are closed.
-/

namespace NetScribe

namespace Binary64

/-- A number other than zero has a significand. -/
theorem significand_pos {x : Binary64} (h : x.isZero = false) : 0 < x.significand := by
  rw [Nat.pos_iff_ne_zero]
  intro hzero
  have hbits : x.bits.toNat % Nat.pow 2 63 ≠ 0 := by simpa [isZero] using h
  rw [significand] at hzero
  by_cases hfield : x.exponentField = 0
  · rw [if_pos hfield] at hzero
    simp only [exponentField, fraction, Nat.pow_eq] at hfield hzero hbits
    omega
  · rw [if_neg hfield] at hzero
    have hlead : 0 < Nat.pow 2 52 := Nat.pow_pos (by omega)
    omega

theorem interval_low_pos {x : Binary64} (h : x.isZero = false) : 0 < x.interval.low := by
  have hpos := significand_pos h
  have hunit : 0 < Nat.pow 2 x.exponent.toNat := Nat.pow_pos (by omega)
  simp only [interval]
  refine Nat.mul_pos ?_ hunit
  split <;> omega

/-- Zero is not in the interval of another number, so a hit is positive. -/
theorem Interval.pos_of_hit? {i : Interval} {k : Int} {count : Nat} (hlow : 0 < i.low)
    (h : i.hit? k = some count) : 0 < count := by
  have hup : 0 < i.low * Nat.pow 10 (-k).toNat := Nat.mul_pos hlow (Nat.pow_pos (by omega))
  unfold hit? at h
  dsimp only at h
  generalize i.low * Nat.pow 10 (-k).toNat = low at h hup
  generalize i.mid * Nat.pow 10 (-k).toNat / (i.den * Nat.pow 10 k.toNat) = below at h
  -- a hit is the point below the number or the one above it, and only the first can be zero
  by_cases hbelow : below = 0
  · subst hbelow
    simp only [Nat.zero_mul, Nat.not_le.mpr hup, Nat.not_lt_zero, decide_false, Bool.false_and,
      ite_self] at h
    split at h
    · next hinside _ => cases hinside
    · next hinside _ => cases hinside
    · cases h
      omega
    · cases h
  · have hcount : count = below ∨ count = below + 1 := by
      split at h <;> grind
    omega

/-- The shortest decimal of a number other than zero has digits other than zeros. -/
theorem shortest_cases {x : Binary64} (h : x.isZero = false) :
    x.shortest = (0, 0) ∨ 0 < x.shortest.1 := by
  rw [shortest]
  generalize hfind : List.findSome? _ _ = found
  cases found with
  | none => exact Or.inl rfl
  | some pair =>
    obtain ⟨k, -, hk⟩ := List.exists_of_findSome?_eq_some hfind
    obtain ⟨count, hcount, rfl⟩ := Option.map_eq_some_iff.mp hk
    exact Or.inr (Interval.pos_of_hit? (interval_low_pos h) hcount)

end Binary64

namespace Json

/-! ## The grammar of numbers -/

/-- Digits, at least one. -/
def Digits (text : List Char) : Prop := text ≠ [] ∧ ∀ c ∈ text, isDigit c = true

/-- The whole part of a number: a leading zero stands alone. -/
def IsWhole (text : List Char) : Prop := Digits text ∧ (text = ['0'] ∨ text.head? ≠ some '0')

/-- A fraction behind its point, or none. -/
def IsFraction (text : List Char) : Prop :=
  text = [] ∨ ∃ digits, Digits digits ∧ text = '.' :: digits

/-- An exponent behind its letter and sign, or none. -/
def IsExponent (text : List Char) : Prop :=
  text = [] ∨
    ∃ sign digits, (sign = '+' ∨ sign = '-') ∧ Digits digits ∧ text = 'e' :: sign :: digits

/-- A number without its sign. -/
def Unsigned (text : List Char) : Prop :=
  ∃ whole fraction exponent, IsWhole whole ∧ IsFraction fraction ∧ IsExponent exponent ∧
    text = whole ++ (fraction ++ exponent)

theorem Digits.first {text : List Char} (h : Digits text) :
    ∃ c rest, text = c :: rest ∧ isDigit c = true ∧ ∀ d ∈ rest, isDigit d = true := by
  obtain ⟨hne, hdigits⟩ := h
  cases text with
  | nil => exact absurd rfl hne
  | cons c rest => exact ⟨c, rest, rfl, List.forall_mem_cons.mp hdigits⟩

theorem IsWhole.cases {text : List Char} (h : IsWhole text) :
    text = ['0'] ∨ ∃ c rest, text = c :: rest ∧ c ≠ '0' ∧ isDigit c = true ∧
      ∀ d ∈ rest, isDigit d = true := by
  obtain ⟨hdigits, hzero | hhead⟩ := h
  · exact Or.inl hzero
  · obtain ⟨c, rest, rfl, hc, hrest⟩ := hdigits.first
    exact Or.inr ⟨c, rest, rfl, by simpa using hhead, hc, hrest⟩

theorem span_all {digits rest : List Char} (h : ∀ c ∈ digits, isDigit c = true)
    (hrest : rest.head?.any isDigit = false) :
    (digits ++ rest).takeWhile isDigit = digits ∧ (digits ++ rest).dropWhile isDigit = rest := by
  rw [List.takeWhile_append_of_pos h, List.dropWhile_append_of_pos h]
  cases rest with
  | nil => exact ⟨by simp, rfl⟩
  | cons c rest =>
    have hc : isDigit c = false := by simpa using hrest
    simp [hc]

theorem IsExponent.head {text : List Char} (h : IsExponent text) :
    text.head?.any isDigit = false := by
  rcases h with rfl | ⟨sign, digits, -, -, rfl⟩ <;> rfl

theorem IsFraction.head {text exponent : List Char} (h : IsFraction text)
    (hexponent : IsExponent exponent) : (text ++ exponent).head?.any isDigit = false := by
  rcases h with rfl | ⟨digits, -, rfl⟩
  · exact hexponent.head
  · rfl

theorem IsExponent.read {text : List Char} (h : IsExponent text) (n : Numeral) :
    ∃ m, withExponent n text = .ok (m, []) := by
  rcases h with rfl | ⟨sign, digits, hsign, hdigits, rfl⟩
  · exact ⟨n, rfl⟩
  · have hread : ∀ minus, ∃ i, exponentDigits minus digits = .ok (i, []) := by
      intro minus
      obtain ⟨c, rest, rfl, hc, hrest⟩ := hdigits.first
      rw [exponentDigits, if_pos hc, List.dropWhile_eq_nil_iff.mpr hrest]
      exact ⟨_, rfl⟩
    rcases hsign with rfl | rfl
    · obtain ⟨i, hi⟩ := hread false
      refine ⟨{ n with exponent := some i }, ?_⟩
      change (exponentPart ('+' :: digits)).map _ = _
      rw [exponentPart_plus, hi]
      rfl
    · obtain ⟨i, hi⟩ := hread true
      refine ⟨{ n with exponent := some i }, ?_⟩
      change (exponentPart ('-' :: digits)).map _ = _
      rw [exponentPart_minus, hi]
      rfl

theorem IsFraction.read {text exponent : List Char} (h : IsFraction text)
    (hexponent : IsExponent exponent) (n : Numeral) :
    ∃ m, withFraction n (text ++ exponent) = .ok (m, []) := by
  rcases h with rfl | ⟨digits, ⟨hne, hdigits⟩, rfl⟩
  · obtain ⟨m, hm⟩ := hexponent.read n
    refine ⟨m, ?_⟩
    rw [List.nil_append, withFraction, hm]
    rintro rest rfl
    rcases hexponent with h | ⟨_, _, _, _, h⟩ <;> cases h
  · obtain ⟨htake, hdrop⟩ := span_all hdigits hexponent.head
    obtain ⟨m, hm⟩ := hexponent.read { n with fraction := digits }
    refine ⟨m, ?_⟩
    rw [List.cons_append, withFraction, htake, hdrop, if_neg (by simpa using hne), hm]

/-- **A number without its sign is read to its end.** -/
theorem Unsigned.numeral {text : List Char} (h : Unsigned text) (minus : Bool) :
    ∃ n, numeral minus text = .ok (n, []) := by
  obtain ⟨whole, fraction, exponent, hwhole, hfraction, hexponent, rfl⟩ := h
  have hhead := hfraction.head hexponent
  rcases hwhole.cases with rfl | ⟨c, rest, rfl, hc, hfirst, hrest⟩
  · obtain ⟨m, hm⟩ := hfraction.read hexponent { minus, whole := ['0'] }
    refine ⟨m, ?_⟩
    change Json.numeral minus ('0' :: (fraction ++ exponent)) = _
    rw [Json.numeral, hhead]
    exact hm
  · obtain ⟨htake, hdrop⟩ := span_all hrest hhead
    obtain ⟨m, hm⟩ := hfraction.read hexponent { minus, whole := c :: rest }
    refine ⟨m, ?_⟩
    rw [List.cons_append, Json.numeral, if_pos hfirst, htake, hdrop, hm]
    exact hc

theorem digits_toDigits (n : Nat) : Digits (Nat.toDigits 10 n) :=
  ⟨Nat.toDigits_ne_nil, fun _ hc => Nat.isDigit_of_mem_toDigits (by omega) (by omega) hc⟩

theorem digits_zeros (k : Nat) : ∀ c ∈ List.replicate k '0', isDigit c = true := by
  intro c hc
  rw [List.eq_of_mem_replicate hc]
  rfl

theorem digits_zero : Digits ['0'] := ⟨List.cons_ne_nil _ _, digits_zeros 1⟩

theorem isWhole_zero : IsWhole ['0'] := ⟨digits_zero, Or.inl rfl⟩

theorem isWhole_toDigits (n : Nat) : IsWhole (Nat.toDigits 10 n) := by
  refine ⟨digits_toDigits n, ?_⟩
  rcases Decimal.toDigits_first n with hzero | ⟨c, rest, hdigits, hc⟩
  · exact Or.inl hzero
  · rw [hdigits]
    exact Or.inr (by simpa using hc)

theorem unsigned_whole {whole : List Char} (h : IsWhole whole) : Unsigned whole :=
  ⟨whole, [], [], h, Or.inl rfl, Or.inl rfl, by simp⟩

theorem unsigned_point {whole digits : List Char} (h : IsWhole whole) (hdigits : Digits digits) :
    Unsigned (whole ++ '.' :: digits) :=
  ⟨whole, '.' :: digits, [], h, Or.inr ⟨digits, hdigits, rfl⟩, Or.inl rfl, by simp⟩

/-- Digits that do not start with a zero. -/
def Leading (digits : List Char) : Prop := Digits digits ∧ digits.head? ≠ some '0'

/-- Of the digits of a number other than zero only zeros at the end are left out. -/
theorem leading_trimZeros {count : Nat} (h : 0 < count) :
    Leading (Decimal.trimZeros (Nat.toDigits 10 count)) := by
  obtain ⟨⟨-, hall⟩, hfirst⟩ := isWhole_toDigits count
  obtain ⟨⟨k, hk⟩, -⟩ := Decimal.trimZeros_spec (Nat.toDigits 10 count)
  have hvalue := @Nat.ofDigitChars_toDigits 10 count (by omega) (by omega)
  have hhead : (Nat.toDigits 10 count).head? ≠ some '0' := by
    rcases hfirst with hzero | hhead
    · rw [hzero] at hvalue
      have hcount : 0 = count := hvalue
      omega
    · exact hhead
  have hne : Nat.toDigits 10 count ≠ [] := Nat.toDigits_ne_nil
  generalize Decimal.trimZeros (Nat.toDigits 10 count) = digits at hk ⊢
  rw [hk] at hall hhead hne
  cases digits with
  | nil =>
    cases k with
    | zero => exact absurd rfl hne
    | succ k => exact absurd rfl hhead
  | cons c rest =>
    exact ⟨⟨List.cons_ne_nil _ _, fun d hd => hall d (List.mem_append_left _ hd)⟩, hhead⟩

theorem unsigned_plain {digits : List Char} (h : Leading digits) (exponent : Int) :
    Unsigned (Decimal.plain digits exponent) := by
  obtain ⟨⟨hne, hall⟩, hfirst⟩ := h
  unfold Decimal.plain
  -- the point stands in front of the digits, behind them or between them
  split
  · refine unsigned_point isWhole_zero ⟨by simp [hne], ?_⟩
    exact List.forall_mem_append.mpr ⟨digits_zeros _, hall⟩
  · dsimp only
    split
    · have hwhole :
          IsWhole (digits ++ List.replicate (exponent.toNat + 1 - digits.length) '0') := by
        refine ⟨⟨by simp [hne], ?_⟩, Or.inr ?_⟩
        · rw [List.forall_mem_append]
          exact ⟨hall, digits_zeros _⟩
        · rwa [List.head?_append_of_ne_nil _ hne]
      exact unsigned_point hwhole digits_zero
    · next hlong =>
      have hwhole : IsWhole (digits.take (exponent.toNat + 1)) := by
        refine ⟨⟨by simp [hne], fun c hc => hall c (List.mem_of_mem_take hc)⟩, Or.inr ?_⟩
        rwa [List.head?_take, if_neg (by omega)]
      refine unsigned_point hwhole ⟨?_, fun c hc => hall c (List.mem_of_mem_drop hc)⟩
      rw [Ne, List.drop_eq_nil_iff]
      exact hlong

theorem unsigned_scientific {digits : List Char} (h : Leading digits) (exponent : Int) :
    Unsigned (Decimal.scientific digits exponent) := by
  obtain ⟨⟨hne, hall⟩, hfirst⟩ := h
  have hsign : ∀ sign, sign = (if exponent < 0 then '-' else '+') →
      IsExponent ('e' :: sign :: Nat.toDigits 10 exponent.natAbs) := by
    rintro sign rfl
    refine Or.inr ⟨_, _, ?_, digits_toDigits _, rfl⟩
    split
    · exact Or.inr rfl
    · exact Or.inl rfl
  cases digits with
  | nil => exact absurd rfl hne
  | cons c rest =>
    obtain ⟨hc, hrest⟩ := List.forall_mem_cons.mp hall
    have hwhole : IsWhole [c] :=
      ⟨⟨by simp, by simpa using hc⟩, Or.inr hfirst⟩
    cases rest with
    | nil => exact ⟨[c], [], _, hwhole, Or.inl rfl, hsign _ rfl, rfl⟩
    | cons d rest =>
      have hfraction : IsFraction ('.' :: d :: rest) := Or.inr ⟨_, ⟨by simp, hrest⟩, rfl⟩
      exact ⟨[c], '.' :: d :: rest, _, hwhole, hfraction, hsign _ rfl, rfl⟩

/-- The text of a number with its sign. -/
def Numeric (text : List Char) : Prop :=
  ∃ digits, Unsigned digits ∧ (text = digits ∨ text = '-' :: digits)

theorem numeric_integerChars (i : Int) : Numeric (integerChars i) := by
  refine ⟨Nat.toDigits 10 i.natAbs, unsigned_whole (isWhole_toDigits _), ?_⟩
  rw [integerChars]
  split
  · exact Or.inr rfl
  · exact Or.inl rfl

theorem numeric_floatChars {x : Binary64} (h : x.isFinite = true) : Numeric (floatChars x) := by
  have hzeros : Unsigned ['0', '.', '0'] := unsigned_point isWhole_zero digits_zero
  have hwrite : x.isZero = false → Unsigned (floatLayout.write x.shortest.1 x.shortest.2) := by
    intro hzero
    rcases x.shortest_cases hzero with hnone | hcount
    · rw [hnone]
      exact hzeros
    · unfold Decimal.Layout.write
      dsimp only
      split
      · exact unsigned_plain (leading_trimZeros hcount) _
      · exact unsigned_scientific (leading_trimZeros hcount) _
  have hsigned : ∀ text, Unsigned text → Numeric ((if x.negative then ['-'] else []) ++ text) := by
    intro text htext
    refine ⟨text, htext, ?_⟩
    split
    · exact Or.inr rfl
    · exact Or.inl rfl
  rw [floatChars, h]
  cases hzero : x.isZero with
  | true => exact hsigned _ hzeros
  | false => exact hsigned _ (hwrite hzero)

/-! ## Numbers nobody needs -/

variable {text exponent tail : List Char}

theorem IsExponent.skip (h : IsExponent text) (hend : Ends tail) :
    skipExponent (text ++ tail) = .ok tail := by
  rcases h with rfl | ⟨sign, digits, hsign, hdigits, rfl⟩
  · cases tail with
    | nil => rfl
    | cons c rest => rcases ends_cons.mp hend with rfl | rfl | rfl <;> rfl
  · obtain ⟨c, rest, rfl, hc, hrest⟩ := hdigits.first
    obtain ⟨-, hdrop⟩ := span_all hrest hend.head_not_digit
    have hread : (if isDigit c then .ok ((rest ++ tail).dropWhile isDigit)
        else .error ⟨.invalidNumber, rest ++ tail⟩ : Except Fault (List Char)) = .ok tail := by
      rw [if_pos hc, hdrop]
    rcases hsign with rfl | rfl
    · exact hread
    · exact hread

theorem IsFraction.skip (h : IsFraction text) (hexponent : IsExponent exponent)
    (hend : Ends tail) : skipFraction (text ++ (exponent ++ tail)) = .ok tail := by
  have hhead : (exponent ++ tail).head?.any isDigit = false := by
    rw [head_append_digit exponent hend]
    exact hexponent.head
  rcases h with rfl | ⟨digits, hdigits, rfl⟩
  · rw [List.nil_append, skipFraction]
    · exact hexponent.skip hend
    · intro rest hrest
      rcases hexponent with rfl | ⟨_, _, _, _, rfl⟩
      · rw [List.nil_append] at hrest
        rw [hrest, ends_cons] at hend
        rcases hend with hc | hc | hc <;> cases hc
      · cases hrest
  · obtain ⟨-, hdrop⟩ := span_all hdigits.2 hhead
    obtain ⟨c, rest, rfl, hc, -⟩ := hdigits.first
    rw [List.cons_append, skipFraction, hdrop, hexponent.skip hend]
    simp [hc]

/-- **A number nobody needs is passed over.** -/
theorem Unsigned.skip (h : Unsigned text) (hend : Ends tail) :
    skipNumber (text ++ tail) = .ok tail := by
  obtain ⟨whole, fraction, exponent, hwhole, hfraction, hexponent, rfl⟩ := h
  have hhead : (fraction ++ (exponent ++ tail)).head?.any isDigit = false := by
    rw [← List.append_assoc, head_append_digit _ hend]
    exact hfraction.head hexponent
  have hskip := hfraction.skip hexponent hend
  rw [List.append_assoc, List.append_assoc]
  rcases hwhole.cases with rfl | ⟨c, rest, rfl, hc, hfirst, hrest⟩
  · change skipNumber ('0' :: (fraction ++ (exponent ++ tail))) = _
    rw [skipNumber, hhead]
    exact hskip
  · obtain ⟨-, hdrop⟩ := span_all hrest hhead
    rw [List.cons_append, skipNumber, if_pos hfirst, hdrop, hskip]
    exact hc

/-! ## Strings nobody needs -/

theorem skipString_escapeChar (c : Char) (tail : List Char) :
    skipString (escapeChar c ++ tail) = skipString tail := by
  unfold escapeChar
  split
  -- the seven characters with an escape of their own
  · rfl
  · rfl
  · rfl
  · rfl
  · rfl
  · rfl
  · rfl
  · next hquote hbackslash _ _ _ _ _ =>
    split
    · next hcontrol =>
      obtain ⟨hdigits, hvalue⟩ := hexChars_small c.toNat hcontrol
      simp only [hdigits, List.cons_append, List.nil_append]
      rw [skipString]
      simp only [hvalue]
    · next hplain =>
      rw [List.singleton_append, skipString, if_neg hplain]
      · exact hquote
      · exact hbackslash

theorem skipString_escaped (text rest : List Char) :
    skipString (text.flatMap escapeChar ++ '"' :: rest) = .ok rest := by
  induction text with
  | nil => rfl
  | cons c letters ih => rw [List.flatMap_cons, List.append_assoc, skipString_escapeChar, ih]

/-! ## Values nobody needs -/

/-- Induction over a value: one without brackets, or one whose items or members are done. -/
theorem treeInduction {motive : Json → Prop} (leaf : ∀ v : Json, v.depth = 0 → motive v)
    (array : ∀ items, (∀ item ∈ items, motive item) → motive (.array items))
    (object : ∀ members : List (String × Json), (∀ member ∈ members, motive member.2) →
      motive (.object members)) (v : Json) : motive v := by
  induction hdepth : v.depth using Nat.strongRecOn generalizing v with
  | ind n ih =>
    cases v with
    | array items =>
      refine array items fun item hitem => ih item.depth ?_ item rfl
      have hle := depth_le_depthItems hitem
      rw [depth] at hdepth
      omega
    | object members =>
      refine object members fun member hmember => ih member.2.depth ?_ member.2 rfl
      have hle := depth_le_depthMembers hmember
      rw [depth] at hdepth
      omega
    | _ => exact leaf _ rfl

/-- What is left to pass over when a value or some brackets have been. -/
def carryOn (bound : List Char) (opened : Except Fault (List Frame × List Char)) :
    Except Fault (List Char) := do
  match ← opened with
  | ([], rest) => .ok rest
  | (frames, rest) => skipFrom bound frames rest

theorem skipFrom_cons (c : Char) (bound : List Char) (outer : List Frame) (text : List Char) :
    skipFrom (c :: bound) outer text = carryOn bound (skipStart outer text) := rfl

/-- A value is passed over, and what is open around it is closed behind it. -/
def PassedOver (v : Json) : Prop :=
  ∀ outer ⦃tail⦄, Ends tail → ∃ rounds ≤ v.chars.length, ∀ bound, rounds ≤ bound.length →
    skipFrom bound outer (v.chars ++ tail) = carryOn (bound.drop rounds) (unwind outer tail)

/-- A value without brackets takes one round. -/
theorem passedOver_of_skipStart {v : Json} (h : ∀ outer ⦃tail⦄, Ends tail →
    skipStart outer (v.chars ++ tail) = unwind outer tail) : PassedOver v := by
  intro outer tail hend
  obtain ⟨c, letters, hchars, -⟩ := chars_start v
  refine ⟨1, by rw [hchars]; simp, fun bound hbound => ?_⟩
  cases bound with
  | nil => cases hbound
  | cons c bound => rw [skipFrom_cons, h outer hend, List.drop_one, List.tail_cons]

theorem skipStart_digit (outer : List Frame) {c : Char} (h : isDigit c = true)
    (rest : List Char) :
    skipStart outer (c :: rest) = skipNumber (c :: rest) >>= unwind outer := by
  have hblank : isBlank c = false := (starts_of_isFloatChar (by simp [isFloatChar, h])).1
  rw [skipStart, skipBlanks_cons hblank]
  split
  · next heq => cases heq
  · next heq => cases heq; cases h
  · next heq => cases heq; cases h
  · next heq => cases heq; cases h
  · next heq => cases heq; cases h
  · next heq => cases heq; cases h
  · next heq => cases heq; cases h
  · next heq => cases heq; cases h
  · next heq =>
    cases heq
    exact if_pos h

theorem Unsigned.first {text : List Char} (h : Unsigned text) :
    ∃ c rest, text = c :: rest ∧ isDigit c = true := by
  obtain ⟨whole, fraction, exponent, ⟨hdigits, -⟩, -, -, rfl⟩ := h
  obtain ⟨c, rest, rfl, hc, -⟩ := hdigits.first
  exact ⟨c, _, rfl, hc⟩

/-- How a value without brackets is written. -/
theorem leaf_cases {v : Json} (h : v.depth = 0) :
    v.chars = ['n', 'u', 'l', 'l'] ∨ v.chars = ['t', 'r', 'u', 'e'] ∨
      v.chars = ['f', 'a', 'l', 's', 'e'] ∨ (∃ text, v = .string text) ∨ Numeric v.chars := by
  cases v with
  | null => exact Or.inl rfl
  | bool value =>
    cases value with
    | true => exact Or.inr (Or.inl rfl)
    | false => exact Or.inr (Or.inr (Or.inl rfl))
  | integer i => exact Or.inr (Or.inr (Or.inr (Or.inr (numeric_integerChars i))))
  | float x =>
    by_cases hfinite : x.isFinite = true
    · exact Or.inr (Or.inr (Or.inr (Or.inr (numeric_floatChars hfinite))))
    · exact Or.inl (by simp [chars, floatChars, hfinite])
  | string text => exact Or.inr (Or.inr (Or.inr (Or.inl ⟨text, rfl⟩)))
  | array items => rw [depth] at h; cases h
  | object members => rw [depth] at h; cases h

theorem passedOver_leaf {v : Json} (h : v.depth = 0) : PassedOver v := by
  refine passedOver_of_skipStart fun outer tail hend => ?_
  rcases leaf_cases h with hv | hv | hv | ⟨text, rfl⟩ | ⟨digits, hdigits, hv | hv⟩
  · rw [hv]
    rfl
  · rw [hv]
    rfl
  · rw [hv]
    rfl
  · rw [chars, stringChars_append]
    change (skipString (text.toList.flatMap escapeChar ++ '"' :: tail) >>= unwind outer) = _
    rw [skipString_escaped]
    rfl
  · have hskip := hdigits.skip hend
    obtain ⟨c, rest, rfl, hc⟩ := hdigits.first
    rw [List.cons_append] at hskip
    rw [hv, List.cons_append, skipStart_digit outer hc, hskip]
    rfl
  · rw [hv]
    change (skipNumber (digits ++ tail) >>= unwind outer) = _
    rw [hdigits.skip hend]
    rfl

/-- A value inside a bracket, behind what leads up to it: nothing, or a key and a colon. -/
abbrev Piece := List Char × Json

/-- Pieces behind others, each with a comma in front. -/
def pieceChars : List Piece → List Char
  | [] => []
  | piece :: rest => ',' :: (piece.1 ++ (piece.2.chars ++ pieceChars rest))

theorem ends_pieceChars (frame : Frame) (pieces : List Piece) (tail : List Char) :
    Ends (pieceChars pieces ++ frame.close :: tail) := by
  cases pieces with
  | nil => cases frame <;> exact ends_cons.mpr (by decide)
  | cons piece rest => exact ends_cons.mpr (Or.inl rfl)

/-- What leads up to a value does not look like the end of the bracket, and is passed over. -/
structure LeadsUp (frame : Frame) (piece : Piece) : Prop where
  start : ∃ c letters, piece.1 ++ piece.2.chars = c :: letters ∧ isBlank c = false ∧
    c ≠ frame.close
  skip : ∀ rest, skipToValue frame (piece.1 ++ (piece.2.chars ++ rest)) =
    .ok (piece.2.chars ++ rest)

/-- Pieces behind a value are passed over up to the bracket that closes them. -/
theorem unwind_pieceChars (frame : Frame) (outer : List Frame) {pieces : List Piece}
    (hvalues : ∀ piece ∈ pieces, PassedOver piece.2)
    (hleads : ∀ piece ∈ pieces, LeadsUp frame piece) (tail : List Char) :
    ∃ rounds ≤ (pieceChars pieces).length, ∀ bound, rounds ≤ bound.length →
      carryOn bound (unwind (frame :: outer) (pieceChars pieces ++ frame.close :: tail)) =
        carryOn (bound.drop rounds) (unwind outer tail) := by
  induction pieces with
  | nil =>
    refine ⟨0, Nat.zero_le _, fun bound _ => ?_⟩
    cases frame <;> rfl
  | cons piece rest ih =>
    obtain ⟨hvalue, hvalues⟩ := List.forall_mem_cons.mp hvalues
    obtain ⟨hlead, hleads⟩ := List.forall_mem_cons.mp hleads
    obtain ⟨later, hlater, hcarry⟩ := ih hvalues hleads
    obtain ⟨first, hfirst, hskip⟩ := hvalue (frame :: outer) (ends_pieceChars frame rest tail)
    -- the rounds of the value and of the pieces behind it are known apart, and add up
    refine ⟨first + later, ?_, fun bound hbound => ?_⟩
    · simp only [pieceChars, List.length_cons, List.length_append]
      omega
    · have hdue : unwind (frame :: outer) (pieceChars (piece :: rest) ++ frame.close :: tail) =
          .ok (frame :: outer, piece.2.chars ++ (pieceChars rest ++ frame.close :: tail)) := by
        simp only [pieceChars, List.cons_append, List.append_assoc]
        change (do .ok (frame :: outer, ← skipToValue frame
          (piece.1 ++ (piece.2.chars ++ (pieceChars rest ++ frame.close :: tail))))) = _
        rw [hlead.skip]
        rfl
      rw [hdue]
      change skipFrom bound (frame :: outer) _ = _
      rw [hskip bound (by omega), hcarry _ (by rw [List.length_drop]; omega), List.drop_drop]

/-- The text of a bracket behind its opening character. -/
def bodyChars (frame : Frame) : List Piece → List Char
  | [] => [frame.close]
  | piece :: rest => piece.1 ++ (piece.2.chars ++ (pieceChars rest ++ [frame.close]))

theorem passedOver_bracket (frame : Frame) {v : Json} {pieces : List Piece} {c : Char}
    (hchars : v.chars = c :: bodyChars frame pieces)
    (hopen : ∀ outer text, skipStart outer (c :: text) = openFrame frame outer text)
    (hvalues : ∀ piece ∈ pieces, PassedOver piece.2)
    (hleads : ∀ piece ∈ pieces, LeadsUp frame piece) : PassedOver v := by
  cases pieces with
  | nil =>
    refine passedOver_of_skipStart fun outer tail _ => ?_
    rw [hchars]
    change skipStart outer (c :: (frame.close :: tail)) = _
    rw [hopen]
    cases frame <;> rfl
  | cons piece rest =>
    intro outer tail hend
    obtain ⟨hvalue, hvalues⟩ := List.forall_mem_cons.mp hvalues
    obtain ⟨hlead, hleads⟩ := List.forall_mem_cons.mp hleads
    obtain ⟨later, hlater, hcarry⟩ := unwind_pieceChars frame outer hvalues hleads tail
    obtain ⟨first, hfirst, hskip⟩ := hvalue (frame :: outer) (ends_pieceChars frame rest tail)
    -- one round opens the bracket, and passes what leads up to the first value
    refine ⟨1 + first + later, ?_, fun bound hbound => ?_⟩
    · rw [hchars]
      simp only [bodyChars, List.length_cons, List.length_append]
      omega
    · have hbody : bodyChars frame (piece :: rest) ++ tail =
          piece.1 ++ (piece.2.chars ++ (pieceChars rest ++ frame.close :: tail)) := by
        simp [bodyChars]
      have hdue : openFrame frame outer (bodyChars frame (piece :: rest) ++ tail) =
          .ok (frame :: outer, piece.2.chars ++ (pieceChars rest ++ frame.close :: tail)) := by
        obtain ⟨c, letters, hstart, hblank, hclose⟩ := hlead.start
        have hskip := hlead.skip (pieceChars rest ++ frame.close :: tail)
        rw [hbody]
        rw [← List.append_assoc, hstart, List.cons_append] at hskip ⊢
        rw [openFrame, skipBlanks_cons hblank]
        simp only [if_neg hclose, hskip]
        rfl
      cases bound with
      | nil =>
        rw [List.length_nil] at hbound
        omega
      | cons d bound =>
        rw [List.length_cons] at hbound
        rw [hchars, skipFrom_cons, List.cons_append, hopen, hdue]
        change skipFrom bound (frame :: outer) _ = _
        rw [hskip bound (by omega), hcarry _ (by rw [List.length_drop]; omega), List.drop_drop,
          Nat.add_assoc, Nat.add_comm 1, List.drop_succ_cons]

theorem leadsUp_item (item : Json) : LeadsUp .list ([], item) := by
  obtain ⟨c, letters, hchars, hblank, hclose⟩ := chars_start item
  exact ⟨⟨c, letters, hchars, hblank, hclose⟩, fun rest => rfl⟩

theorem leadsUp_member (key : String) (value : Json) :
    LeadsUp .object (stringChars key ++ [':'], value) := by
  refine ⟨⟨'"', _, rfl, by decide, by decide⟩, fun rest => ?_⟩
  simp only [List.append_assoc, List.cons_append, List.nil_append, stringChars_append]
  change (skipString (key.toList.flatMap escapeChar ++ '"' :: ':' :: (value.chars ++ rest)) >>=
    colon) = _
  rw [skipString_escaped]
  rfl

theorem pieceChars_items (items : List Json) :
    pieceChars (items.map ([], ·)) = itemChars items := by
  induction items with
  | nil => rfl
  | cons item rest ih => simp [pieceChars, itemChars, ih]

theorem pieceChars_members (members : List (String × Json)) :
    pieceChars (members.map fun member => (stringChars member.1 ++ [':'], member.2)) =
      memberChars members := by
  induction members with
  | nil => rfl
  | cons member rest ih => simp [pieceChars, memberChars, ih]

/-- **Every value is passed over**, by induction on its brackets. -/
theorem passedOver (v : Json) : PassedOver v := by
  induction v using treeInduction with
  | leaf v h => exact passedOver_leaf h
  | array items ih =>
    have hchars : (array items).chars = '[' :: bodyChars .list (items.map ([], ·)) := by
      rw [chars_array]
      cases items with
      | nil => rfl
      | cons first rest => simp [listBody, bodyChars, pieceChars_items, Frame.close]
    refine passedOver_bracket .list hchars (fun _ _ => rfl) ?_ ?_
    · exact List.forall_mem_map.mpr fun item hitem => ih item hitem
    · exact List.forall_mem_map.mpr fun item _ => leadsUp_item item
  | object members ih =>
    have hchars : (object members).chars = '\x7b' :: bodyChars .object
        (members.map fun member => (stringChars member.1 ++ [':'], member.2)) := by
      rw [chars_object]
      cases members with
      | nil => rfl
      | cons first rest => simp [objectBody, bodyChars, pieceChars_members, Frame.close]
    refine passedOver_bracket .object hchars (fun _ _ => rfl) ?_ ?_
    · exact List.forall_mem_map.mpr fun member hmember => ih member hmember
    · exact List.forall_mem_map.mpr fun member _ => leadsUp_member member.1 member.2

/-- **The text of a value nobody needs is passed over**, whatever its numbers and however deep its
brackets. -/
theorem skipValue_chars (v : Json) {tail : List Char} (h : Ends tail) :
    skipValue (v.chars ++ tail) = .ok tail := by
  obtain ⟨rounds, hrounds, hskip⟩ := passedOver v [] h
  rw [skipValue, hskip _ (by rw [List.length_append]; omega)]
  rfl

end Json

end NetScribe
