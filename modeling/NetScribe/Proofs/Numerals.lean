import Mathlib.Data.List.TakeWhile
import NetScribe.Document.Read

/-!
# Numbers in a text

A number ends where its characters do, so how it is read depends on what follows it. `Stops` says
that a reader that takes a whole text takes the same of it in front of anything that ends a value;
every part of the number reader stops (`stops_number`).

A number that is no integer is written with a point or an exponent, and so it is never read as an
integer (`digits_of_number`). If it reads back at all, it reads back behind its sign or from its
first digit (`number_of_readsBack`), which is where every reader of values starts on it.
-/

namespace NetScribe

namespace Json

/-! ## Where a number ends -/

/-- What may follow a value: nothing, or a separator or closing bracket first. -/
def Ends (tail : List Char) : Prop := ∀ c ∈ tail.head?, c = ',' ∨ c = ']' ∨ c = '\x7d'

theorem ends_nil : Ends [] := by simp [Ends]

theorem ends_cons {c : Char} {rest : List Char} :
    Ends (c :: rest) ↔ c = ',' ∨ c = ']' ∨ c = '\x7d' := by simp [Ends]

/-- A reader that reads a text to its end reads no further with more behind it. -/
def Stops {α : Type} (reader : Reader α) : Prop :=
  ∀ ⦃text a tail⦄, reader text = .ok (a, []) → Ends tail → reader (text ++ tail) = .ok (a, tail)

theorem Ends.head_not_digit {tail : List Char} (h : Ends tail) :
    tail.head?.any isDigit = false := by
  cases tail with
  | nil => rfl
  | cons c rest => rcases ends_cons.mp h with rfl | rfl | rfl <;> rfl

/-- The digits at the start of a text are the same with such a tail behind it. -/
theorem span_digits (text : List Char) {tail : List Char} (h : Ends tail) :
    (text ++ tail).takeWhile isDigit = text.takeWhile isDigit ∧
      (text ++ tail).dropWhile isDigit = text.dropWhile isDigit ++ tail := by
  induction text with
  | nil =>
    have hhead := h.head_not_digit
    cases tail with
    | nil => exact ⟨rfl, rfl⟩
    | cons c rest =>
      have hc : isDigit c = false := by simpa using hhead
      simp [hc]
  | cons c rest ih =>
    by_cases hc : isDigit c = true
    · simp [hc, ih]
    · simp [hc]

theorem head_append_digit (text : List Char) {tail : List Char} (h : Ends tail) :
    (text ++ tail).head?.any isDigit = text.head?.any isDigit := by
  cases text with
  | nil => exact h.head_not_digit
  | cons c rest => rfl

/-- The digits of an exponent, behind its sign. -/
def exponentDigits (minus : Bool) : Reader Int
  | [] => .error ⟨.endOfValue, []⟩
  | c :: rest =>
    if isDigit c then
      let value : Int := digitsValue (c :: rest.takeWhile isDigit)
      .ok (if minus then -value else value, rest.dropWhile isDigit)
    else .error ⟨.invalidNumber, rest⟩

theorem stops_exponentDigits (minus : Bool) : Stops (exponentDigits minus) := by
  intro text exponent tail h hend
  cases text with
  | nil => cases h
  | cons c rest =>
    rw [exponentDigits] at h
    split at h
    · next hc =>
      injection h with h
      injection h with hvalue hrest
      obtain ⟨htake, hdrop⟩ := span_digits rest hend
      rw [List.cons_append, exponentDigits, if_pos hc, htake, hdrop, hrest, ← hvalue]
      rfl
    · cases h

/-! `exponentPart` is `exponentDigits` behind a sign, if there is one. -/

theorem exponentPart_plus (rest : List Char) :
    exponentPart ('+' :: rest) = exponentDigits false rest := by
  cases rest <;> rfl

theorem exponentPart_minus (rest : List Char) :
    exponentPart ('-' :: rest) = exponentDigits true rest := by
  cases rest <;> rfl

theorem exponentPart_plain {c : Char} (hplus : c ≠ '+') (hminus : c ≠ '-') (rest : List Char) :
    exponentPart (c :: rest) = exponentDigits false (c :: rest) := by
  unfold exponentPart
  split
  next heq =>
  split at heq
  · next hc => injection hc with hc; exact absurd hc hplus
  · next hc => injection hc with hc; exact absurd hc hminus
  · cases heq; rfl

theorem stops_exponentPart : Stops exponentPart := by
  intro text exponent tail h hend
  cases text with
  | nil => cases h
  | cons c rest =>
    rw [List.cons_append]
    by_cases hplus : c = '+'
    · rw [hplus, exponentPart_plus] at h ⊢
      exact stops_exponentDigits false h hend
    by_cases hminus : c = '-'
    · rw [hminus, exponentPart_minus] at h ⊢
      exact stops_exponentDigits true h hend
    rw [exponentPart_plain hplus hminus] at h ⊢
    exact stops_exponentDigits false h hend

theorem stops_withExponent (n : Numeral) : Stops (withExponent n) := by
  intro text m tail h hend
  cases text with
  | nil =>
    cases h
    cases tail with
    | nil => rfl
    | cons c rest => rcases ends_cons.mp hend with rfl | rfl | rfl <;> rfl
  | cons c rest =>
    by_cases he : c = 'e' ∨ c = 'E'
    · have hexponent : ∀ rest, withExponent n (c :: rest) =
          (exponentPart rest).map fun found => ({ n with exponent := found.1 }, found.2) := by
        intro rest
        rcases he with rfl | rfl <;> rfl
      rw [hexponent] at h
      rw [List.cons_append, hexponent]
      cases hpart : exponentPart rest with
      | error fault => rw [hpart] at h; cases h
      | ok found =>
        obtain ⟨exponent, left⟩ := found
        rw [hpart] at h
        cases h
        rw [stops_exponentPart hpart hend]
        rfl
    · -- without an exponent nothing is read, and `c` would be left over
      rw [not_or] at he
      rw [withExponent] at h
      · cases h
      · exact fun _ hc => he.1 (List.cons.inj hc).1
      · exact fun _ hc => he.2 (List.cons.inj hc).1

theorem stops_withFraction (n : Numeral) : Stops (withFraction n) := by
  intro text m tail h hend
  by_cases hpoint : ∃ rest, text = '.' :: rest
  · obtain ⟨rest, rfl⟩ := hpoint
    obtain ⟨htake, hdrop⟩ := span_digits rest hend
    rw [withFraction] at h
    rw [List.cons_append, withFraction, htake, hdrop]
    split at h
    · split at h <;> cases h
    · next hdigits =>
      rw [if_neg hdigits]
      exact stops_withExponent _ h hend
  · have hplain : ∀ text, (¬ ∃ rest, text = '.' :: rest) →
        withFraction n text = withExponent n text := by
      intro text hne
      rw [withFraction]
      exact fun rest hrest => hne ⟨rest, hrest⟩
    rw [hplain _ hpoint] at h
    rw [hplain]
    · exact stops_withExponent n h hend
    · -- no tail starts with a point, so the longer text does not either
      rintro ⟨rest, hrest⟩
      cases text with
      | nil =>
        rw [List.nil_append] at hrest
        rw [hrest] at hend
        rcases ends_cons.mp hend with hc | hc | hc <;> cases hc
      | cons c letters =>
        exact hpoint ⟨letters, by rw [(List.cons.inj hrest).1]⟩

theorem stops_numeral (minus : Bool) : Stops (numeral minus) := by
  intro text n tail h hend
  cases text with
  | nil => cases h
  | cons c rest =>
    obtain ⟨htake, hdrop⟩ := span_digits rest hend
    rw [List.cons_append]
    by_cases hzero : c = '0'
    · rw [hzero, numeral] at h ⊢
      rw [head_append_digit rest hend]
      split at h
      · cases h
      · next hdigit =>
        rw [if_neg hdigit]
        exact stops_withFraction _ h hend
    · rw [numeral] at h ⊢
      · split at h
        · next hdigit =>
          rw [if_pos hdigit, htake, hdrop]
          exact stops_withFraction _ h hend
        · cases h
      · exact hzero
      · exact hzero

/-- **A number ends where nothing follows that goes on.** -/
theorem stops_number (minus : Bool) : Stops (number minus) := by
  intro text value tail h hend
  rw [number] at h ⊢
  cases hparts : numeral minus text with
  | error fault => rw [hparts] at h; cases h
  | ok found =>
    obtain ⟨n, left⟩ := found
    rw [hparts] at h
    dsimp only at h
    cases hvalue : n.value? with
    | none => rw [hvalue] at h; cases h
    | some v =>
      rw [hvalue] at h
      cases h
      rw [stops_numeral minus hparts hend]
      dsimp only
      rw [hvalue]

/-! ## Integers

A number is read as an integer only if it has neither fraction nor exponent, and then nothing but
digits were read. -/

/-- An exponent is read or nothing is. -/
theorem withExponent_cases {n m : Numeral} {text rest : List Char}
    (h : withExponent n text = .ok (m, rest)) :
    (m = n ∧ rest = text) ∨ ∃ exponent, m = { n with exponent := some exponent } := by
  have hpart : ∀ letters, (exponentPart letters).map (fun found =>
      (({ n with exponent := found.1 } : Numeral), found.2)) = .ok (m, rest) →
        ∃ exponent, m = { n with exponent := some exponent } := by
    intro letters hmap
    cases hexponent : exponentPart letters with
    | error fault =>
      rw [hexponent] at hmap
      cases hmap
    | ok found =>
      obtain ⟨exponent, left⟩ := found
      rw [hexponent] at hmap
      cases hmap
      exact ⟨exponent, rfl⟩
  unfold withExponent at h
  split at h
  · exact Or.inr (hpart _ h)
  · exact Or.inr (hpart _ h)
  · cases h
    exact Or.inl ⟨rfl, rfl⟩

theorem digits_of_withFraction {n m : Numeral} {text : List Char}
    (h : withFraction n text = .ok (m, [])) (hnone : m.exponent = none)
    (hempty : m.fraction = []) : text = [] := by
  unfold withFraction at h
  split at h
  · next rest =>
    dsimp only at h
    split at h
    · split at h <;> cases h
    · next hdigits =>
      rcases withExponent_cases h with ⟨rfl, -⟩ | ⟨exponent, rfl⟩
      · exact absurd (List.isEmpty_iff.mpr hempty) hdigits
      · cases hnone
  · rcases withExponent_cases h with ⟨-, hrest⟩ | ⟨exponent, rfl⟩
    · exact hrest.symm
    · cases hnone

theorem digits_of_numeral {minus : Bool} {text : List Char} {n : Numeral}
    (h : numeral minus text = .ok (n, [])) (hnone : n.exponent = none) (hempty : n.fraction = []) :
    ∀ c ∈ text, isDigit c = true := by
  unfold numeral at h
  split at h
  · cases h
  · next rest =>
    split at h
    · cases h
    · rw [digits_of_withFraction h hnone hempty, List.forall_mem_singleton]
      rfl
  · next c rest _ =>
    split at h
    · next hc =>
      have hrest := digits_of_withFraction h hnone hempty
      exact List.forall_mem_cons.mpr ⟨hc, List.dropWhile_eq_nil_iff.mp hrest⟩
    · cases h

/-- A number that is read as an integer is digits throughout. -/
theorem digits_of_number {minus : Bool} {text : List Char} {i : Int}
    (h : number minus text = .ok (.integer i, [])) : ∀ c ∈ text, isDigit c = true := by
  unfold number at h
  split at h
  · cases h
  · next n rest hparts =>
    split at h
    · next value hvalue =>
      cases h
      unfold Numeral.value? at hvalue
      dsimp only at hvalue
      split at hvalue
      · next hplain =>
        simp only [Bool.and_eq_true, List.isEmpty_iff, Option.isNone_iff_eq_none] at hplain
        exact digits_of_numeral hparts hplain.1.2 hplain.1.1
      · simp at hvalue
    · cases h

/-! ## The text of a number -/

/-- A character of a number with a point or an exponent. -/
def isFloatChar (c : Char) : Bool :=
  isDigit c || c == '-' || c == '.' || c == 'e' || c == '+'

theorem isFloatChar_digits {n : Nat} {c : Char} (h : c ∈ Nat.toDigits 10 n) :
    isFloatChar c = true := by
  have hdigit := Nat.isDigit_of_mem_toDigits (by omega) (by omega) h
  have hdigit : isDigit c = true := hdigit
  simp [isFloatChar, hdigit]

theorem isFloatChar_plain {digits : List Char} (h : ∀ c ∈ digits, isFloatChar c = true)
    (exponent : Int) : ∀ c ∈ Decimal.plain digits exponent, isFloatChar c = true := by
  have hzero : isFloatChar '0' = true ∧ isFloatChar '.' = true := by decide
  intro c hc
  unfold Decimal.plain at hc
  dsimp only at hc
  split at hc
  · simp at hc
    grind
  · split at hc
    · grind
    · grind

theorem isFloatChar_scientific {digits : List Char} (h : ∀ c ∈ digits, isFloatChar c = true)
    (exponent : Int) : ∀ c ∈ Decimal.scientific digits exponent, isFloatChar c = true := by
  have hfixed : isFloatChar '-' = true ∧ isFloatChar '.' = true ∧ isFloatChar 'e' = true ∧
      isFloatChar '+' = true := by decide
  have hexponent : ∀ c ∈ Nat.toDigits 10 exponent.natAbs, isFloatChar c = true :=
    fun c hc => isFloatChar_digits hc
  intro c hc
  unfold Decimal.scientific at hc
  dsimp only at hc
  split at hc <;> grind

theorem isFloatChar_write (layout : Decimal.Layout) (count : Nat) (k : Int) :
    ∀ c ∈ layout.write count k, isFloatChar c = true := by
  have hdigits : ∀ c ∈ Decimal.trimZeros (Nat.toDigits 10 count), isFloatChar c = true := by
    intro c hc
    have hdrop := (List.dropWhile_sublist _).mem (List.mem_reverse.mp hc)
    exact isFloatChar_digits (List.mem_reverse.mp hdrop)
  unfold Decimal.Layout.write
  dsimp only
  split
  · exact isFloatChar_plain hdigits _
  · exact isFloatChar_scientific hdigits _

theorem isFloatChar_floatChars {x : Binary64} (h : x.isFinite = true) :
    ∀ c ∈ floatChars x, isFloatChar c = true := by
  have hfixed : isFloatChar '-' = true ∧ isFloatChar '.' = true ∧ isFloatChar '0' = true := by
    decide
  have hwrite := isFloatChar_write floatLayout x.shortest.1 x.shortest.2
  intro c hc
  unfold floatChars at hc
  simp only [h] at hc
  grind

/-- A number that is no integer is written with a point or an exponent. -/
theorem not_digit_mem_floatChars {x : Binary64} (h : x.isFinite = true) :
    ∃ c ∈ floatChars x, isDigit c = false ∧ c ≠ '-' := by
  have hwrite : ∀ count k, ∃ c ∈ floatLayout.write count k, isDigit c = false ∧ c ≠ '-' := by
    intro count k
    unfold Decimal.Layout.write
    dsimp only
    split
    · refine ⟨'.', ?_, by decide⟩
      unfold Decimal.plain
      dsimp only
      split
      · simp
      · split <;> simp
    · exact ⟨'e', by simp [Decimal.scientific], by decide⟩
  obtain ⟨c, hc, hpoint⟩ := hwrite x.shortest.1 x.shortest.2
  unfold floatChars
  simp only [h]
  split
  · contradiction
  · split
    · exact ⟨'.', by simp, by decide⟩
    · exact ⟨c, List.mem_append_right _ hc, hpoint⟩

end Json

/-! ## Numbers that read back -/

/-- A finite number that is read unchanged from the text it is written as. -/
def Binary64.ReadsBack (x : Binary64) : Prop :=
  x.isFinite = true ∧ Json.readNumber (Json.floatChars x) = .ok (x, [])

namespace Json

variable {x : Binary64}

/-- What is not only digits is read as a number that is no integer. -/
theorem number_eq_float {minus : Bool} {text : List Char}
    (h : toNumber (number minus text) = .ok (x, [])) (hpoint : ∃ c ∈ text, isDigit c = false) :
    number minus text = .ok (.float x, []) := by
  cases hnumber : number minus text with
  | error fault => rw [hnumber] at h; cases h
  | ok found =>
    obtain ⟨value, rest⟩ := found
    rw [hnumber] at h
    cases value with
    | integer i =>
      cases h
      obtain ⟨c, hc, hnot⟩ := hpoint
      have hdigit := digits_of_number hnumber c hc
      rw [hnot] at hdigit
      cases hdigit
    | float y => cases h; rfl
    | _ => cases h

/-- **How a number that reads back is read**: behind its sign, or from its first digit. -/
theorem number_of_readsBack (h : x.ReadsBack) :
    (∃ rest, floatChars x = '-' :: rest ∧ number true rest = .ok (.float x, [])) ∨
      ∃ c rest, floatChars x = c :: rest ∧ isDigit c = true ∧
        number false (c :: rest) = .ok (.float x, []) := by
  obtain ⟨hfinite, hread⟩ := h
  obtain ⟨c, hc, hnot, hminus⟩ := not_digit_mem_floatChars hfinite
  have hchars := isFloatChar_floatChars hfinite
  cases htext : floatChars x with
  | nil => rw [htext] at hc; cases hc
  | cons first rest =>
    rw [htext] at hc hread hchars
    have hfirst := hchars first List.mem_cons_self
    have hskip : skipBlanks (first :: rest) = first :: rest := by
      rw [skipBlanks, List.dropWhile_cons_of_neg]
      intro hblank
      simp only [isBlank, Bool.or_eq_true, beq_iff_eq] at hblank
      rcases hblank with ((rfl | rfl) | rfl) | rfl <;> cases hfirst
    rw [readNumber, hskip] at hread
    -- the character that shows that this is no integer stands behind the sign, if there is one
    by_cases hsign : first = '-'
    · subst hsign
      refine Or.inl ⟨rest, rfl, number_eq_float hread ⟨c, ?_, hnot⟩⟩
      exact (List.mem_cons.mp hc).resolve_left hminus
    · split at hread
      · cases hread
      · next heq => exact absurd (List.cons.inj heq).1 hsign
      · next heq =>
        cases heq
        split at hread
        · next hdigit =>
          exact Or.inr ⟨first, rest, rfl, hdigit, number_eq_float hread ⟨c, hc, hnot⟩⟩
        · cases hread

end Json

end NetScribe
