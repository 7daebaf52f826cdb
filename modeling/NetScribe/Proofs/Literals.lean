import NetScribe.Proofs.Batches
import NetScribe.Proofs.Imports

/-!
# Numbers as literals

The numbers of arrays and tables are written as elements of arrays of doubles. A literal with a
point is one of a double; a literal without point, exponent or suffix is one of an integer, and is
refused if the integer has more than thirty-two bits. The text of a number has no point when the
number is rounded to an integer (`point_mem_numberText_iff`), so it is a literal exactly if that
integer is not too large (`asDouble_numberText_iff`).

The numbers of a written program are read from its lines: they are what stands between commas,
blanks and braces (`numbersIn`). Read so, the lines of a node hold the texts of its numbers and
nothing else (`numbers_initializers`).
-/

namespace NetScribe

namespace Decimal

/-- A literal for an element of an array of doubles: it has a point, or it is an integer of
thirty-two bits. Without a point, exponent or suffix a literal is one of an integer. -/
def AsDouble (letters : List Char) : Prop :=
  '.' ∈ letters ∨ ∃ i : ℤ, textValue letters = i ∧ -2147483648 ≤ i ∧ i ≤ 2147483647

/-- Nothing stands behind the point exactly if the units make a whole number. -/
theorem fractionDigits_eq_nil_iff (places units : Nat) :
    fractionDigits places units = [] ↔ 10 ^ places ∣ units := by
  obtain ⟨hvalue, -⟩ := fractionDigits_spec places units
  have hplain := plain_fixed places units
  rw [Nat.dvd_iff_mod_eq_zero]
  constructor
  · intro hnil
    rw [hnil, Nat.ofDigitChars_nil, Nat.cast_zero, zero_div, eq_comm, div_eq_zero_iff] at hvalue
    exact_mod_cast hvalue.resolve_right (by positivity)
  · intro hzero
    -- behind a zero, these digits would be a way to write zero
    have hbehind : Plain ['0'] (fractionDigits places units) :=
      ⟨by simp, Or.inl rfl, hplain.fraction_digits, hplain.fraction_last⟩
    refine (hbehind.eq_zero ?_).2
    rw [magnitude, hvalue, hzero]
    simp [Nat.ofDigitChars_cons]

end Decimal

namespace Java

open Decimal (AsDouble textValue)

variable {x : Binary64} {precision : ℕ} {n : ℤ}

/-- **A point is written exactly if a number is not rounded to a whole one.** -/
theorem point_mem_numberText_iff (hfinite : x.isFinite = true) (h : x.RoundsTo precision n) :
    '.' ∈ (numberText precision x).toList ↔ ¬ (10 ^ precision : ℤ) ∣ n := by
  have hplain := Decimal.plain_fixed precision (x.scaled precision)
  have hcount := h.unique (x.roundsTo_scaled precision)
  have hdvd : (10 ^ precision : ℤ) ∣ n ↔ 10 ^ precision ∣ x.scaled precision := by
    rw [hcount]
    split
    · rw [neg_one_mul, dvd_neg]
      exact_mod_cast Int.natCast_dvd_natCast
    · rw [one_mul]
      exact_mod_cast Int.natCast_dvd_natCast
  rw [toList_numberText hfinite, hplain.point_mem_iff, Ne, Decimal.fractionDigits_eq_nil_iff, hdvd]

/-- A number that is an integer of thirty-two bits if it is rounded to an integer at all. -/
def FitsLiteral (x : Binary64) : Prop :=
  x.isFinite = true → ∀ i : ℤ, x.RoundsTo defaultPrecision (i * 10 ^ defaultPrecision) →
    -2147483648 ≤ i ∧ i ≤ 2147483647

/-- **The text of a number is a literal exactly if the number is not rounded to an integer that is
too large for one.** -/
theorem asDouble_numberText_iff (x : Binary64) :
    AsDouble (numberText defaultPrecision x).toList ↔ FitsLiteral x := by
  by_cases hfinite : x.isFinite = true
  · obtain ⟨n, hround⟩ : ∃ n, x.RoundsTo defaultPrecision n :=
      ⟨_, x.roundsTo_scaled defaultPrecision⟩
    have hvalue := (spells_numberText hfinite hround).2.2
    rw [AsDouble, point_mem_numberText_iff hfinite hround, hvalue]
    constructor
    · rintro haccepted - i hi
      obtain rfl := hround.unique hi
      rcases haccepted with hpoint | ⟨j, hj, hrange⟩
      · exact absurd (Dvd.intro_left i rfl) hpoint
      · obtain rfl : i = j := by
          push_cast at hj
          rw [mul_div_cancel_right₀ _ (by positivity)] at hj
          exact_mod_cast hj
        exact hrange
    · intro hfits
      by_cases hwhole : (10 ^ defaultPrecision : ℤ) ∣ n
      · obtain ⟨i, rfl⟩ := hwhole
        rw [mul_comm] at hround
        refine Or.inr ⟨i, ?_, hfits hfinite i hround⟩
        push_cast
        exact mul_div_cancel_left₀ _ (by positivity)
      · exact Or.inl hwhole
  · have hzero : AsDouble ['0'] :=
      Or.inr ⟨0, by simp [textValue, Decimal.unsignedValue, Decimal.behindPoint,
        Nat.ofDigitChars_cons], by decide, by decide⟩
    rw [numberText, if_neg hfinite]
    exact iff_of_true hzero fun h => absurd h hfinite

/-- What is no larger than the largest integer of thirty-two bits fits. -/
theorem fitsLiteral_of_le {x : Binary64} (h : x.numerator ≤ 2147483647 * x.denominator) :
    FitsLiteral x := by
  have hsize : |x.value| ≤ 2147483647 := by
    have hpos : (0 : ℚ) < x.denominator := by exact_mod_cast x.denominator_pos
    have hsign : |(if x.negative then -1 else 1 : ℚ)| = 1 := by split <;> simp
    rw [x.value_eq, abs_mul, hsign, one_mul, abs_of_nonneg (by positivity), div_le_iff₀ hpos]
    exact_mod_cast h
  rintro - i ⟨hnear, -⟩
  obtain ⟨hbelow, habove⟩ := abs_le.mp hsize
  obtain ⟨hless, hmore⟩ := abs_le.mp hnear
  rw [show defaultPrecision = 10 from rfl] at hless hmore
  push_cast at hless hmore
  have hlow : (-2147483648 : ℚ) ≤ i := by linarith
  have hhigh : (i : ℚ) < 2147483648 := by linarith
  exact ⟨by exact_mod_cast hlow, Int.lt_add_one_iff.mp (by exact_mod_cast hhigh)⟩

/-! ## Numbers on a line -/

/-- What can stand between two numbers. -/
def isSeparator (c : Char) : Bool :=
  c == ',' || c == ' ' || c == '\x7b' || c == '\x7d'

/-- The numbers in a text: the pieces between separators. -/
def numbersIn (letters : List Char) : List (List Char) :=
  (letters.splitOnP isSeparator).filter (· ≠ [])

@[simp] theorem numbersIn_nil : numbersIn [] = [] := by
  simp [numbersIn, List.splitOnP_nil]

/-- A separator belongs to no number. -/
theorem numbersIn_append_separator {sep : Char} (h : isSeparator sep = true)
    (front back : List Char) :
    numbersIn (front ++ sep :: back) = numbersIn front ++ numbersIn back := by
  rw [numbersIn, List.splitOnP_append_cons _ _ h, List.filter_append, numbersIn, numbersIn]

theorem numbersIn_separator_cons {sep : Char} (h : isSeparator sep = true) (letters : List Char) :
    numbersIn (sep :: letters) = numbersIn letters := by
  simpa using numbersIn_append_separator h [] letters

theorem numbersIn_numberText (precision : Nat) (x : Binary64) :
    numbersIn (numberText precision x).toList = [(numberText precision x).toList] := by
  obtain ⟨hne, hcomma⟩ := uncut_numberText precision x
  have hletters : ∀ c ∈ (numberText precision x).toList, isSeparator c = false := by
    intro c hc
    have hnumeral := isNumeral_of_mem_numberText hc
    have hother : c ≠ ',' := fun h => hcomma (h ▸ hc)
    have hblank : c ≠ ' ' := fun h => absurd (h ▸ hnumeral) (by decide)
    have hopen : c ≠ '\x7b' := fun h => absurd (h ▸ hnumeral) (by decide)
    have hclose : c ≠ '\x7d' := fun h => absurd (h ▸ hnumeral) (by decide)
    simp [isSeparator, hother, hblank, hopen, hclose]
  rw [numbersIn, List.splitOnP_eq_singleton hletters]
  simp [hne]

/-- Numbers with commas between them are these numbers. -/
theorem numbersIn_intercalate {texts : List String}
    (h : ∀ text ∈ texts, numbersIn text.toList = [text.toList]) :
    numbersIn (",".intercalate texts).toList = texts.map String.toList := by
  induction texts with
  | nil => simp
  | cons text rest ih =>
    obtain ⟨htext, hrest⟩ := List.forall_mem_cons.mp h
    cases rest with
    | nil => simpa using htext
    | cons next rest =>
      have hcut : (",".intercalate (text :: next :: rest)).toList =
          text.toList ++ ',' :: (",".intercalate (next :: rest)).toList := by
        simp
      rw [hcut, numbersIn_append_separator rfl, htext, ih hrest]
      rfl

theorem numbersIn_commaLines {lines : List (List String)}
    (h : ∀ line ∈ lines, ∀ text ∈ line, numbersIn text.toList = [text.toList]) :
    (commaLines lines).flatMap (fun row => numbersIn row.toList) =
      lines.flatten.map String.toList := by
  induction lines using commaLines.induct with
  | case1 => rfl
  | case2 last => simpa [commaLines] using numbersIn_intercalate (h last List.mem_cons_self)
  | case3 line next rest ih =>
    obtain ⟨hline, hrest⟩ := List.forall_mem_cons.mp h
    have hrow : numbersIn (",".intercalate line ++ ",").toList = line.map String.toList := by
      rw [String.toList_append, ← numbersIn_intercalate hline]
      exact (numbersIn_append_separator rfl _ []).trans (by simp)
    rw [commaLines, List.flatMap_cons, hrow, ih hrest, List.flatten_cons (l := line),
      List.map_append]

/-- The letters of numbers as they are written in a program. -/
def numerals (values : List Binary64) : List (List Char) :=
  values.map fun x => (numberText defaultPrecision x).toList

theorem numerals_eq (values : List Binary64) :
    numerals values = (values.map (numberText defaultPrecision)).map String.toList := by
  rw [numerals, List.map_map]
  rfl

/-- **A list of numbers holds these numbers**, -/
theorem numbersIn_numberList (values : List Binary64) :
    numbersIn (numberList defaultPrecision values).toList = numerals values := by
  rw [numberList, numbersIn_intercalate, numerals_eq]
  exact List.forall_mem_map.mpr fun x _ => numbersIn_numberText _ x

/-- so does a row of a table between its braces, -/
theorem numbersIn_row (values : List Binary64) :
    numbersIn ("\x7b " ++ numberList defaultPrecision values ++ " \x7d,").toList =
      numerals values := by
  have hcut : ("\x7b " ++ numberList defaultPrecision values ++ " \x7d,").toList =
      '\x7b' :: ' ' :: ((numberList defaultPrecision values).toList ++ ' ' :: ['\x7d', ',']) := by
    simp
  have hblank : isSeparator ' ' = true := rfl
  have hopen : isSeparator '\x7b' = true := rfl
  have hback : numbersIn ['\x7d', ','] = [] := by decide
  rw [hcut, numbersIn_separator_cons hopen, numbersIn_separator_cons hblank,
    numbersIn_append_separator hblank, numbersIn_numberList, hback, List.append_nil]

/-- and so do the lines of an array. -/
theorem numbersIn_batchLines (batch : Nat) (values : List Binary64) :
    (batchLines defaultPrecision batch values).flatMap (fun row => numbersIn row.toList) =
      numerals values := by
  rw [batchLines, numbersIn_commaLines, flatten_groups, numerals_eq]
  intro line hline text htext
  obtain ⟨x, -, rfl⟩ := List.mem_map.mp (mem_of_mem_groups hline htext)
  exact numbersIn_numberText _ x

/-! ## The numbers of a written program -/

/-- An array or a table of a written program: its first line and the lines between its braces. -/
structure Initializer where
  opening : String
  lines : List String

namespace Initializer

/-- An array, a few numbers per line. -/
def array (name : String) (values : List Binary64) : Initializer where
  opening := "public static final double[] " ++ name ++ " = \x7b"
  lines := batchLines defaultPrecision arrayBatch values

/-- A table, one row per line. -/
def table (name : String) (rows : List (List Binary64)) : Initializer where
  opening := "public static final double[][] " ++ name ++ " = \x7b"
  lines := rows.map fun row => "\x7b " ++ numberList defaultPrecision row ++ " \x7d,"

/-- The numbers on the lines. -/
def numbers (block : Initializer) : List (List Char) :=
  block.lines.flatMap (numbersIn ·.toList)

theorem numbers_array (name : String) (values : List Binary64) :
    (array name values).numbers = numerals values :=
  numbersIn_batchLines _ _

theorem numbers_table (name : String) (rows : List (List Binary64)) :
    (table name rows).numbers = numerals rows.flatten := by
  have hrows : (table name rows).numbers = rows.flatMap numerals := by
    change (rows.map fun row => "\x7b " ++ numberList defaultPrecision row ++ " \x7d,").flatMap
      (fun row => numbersIn row.toList) = _
    rw [List.flatMap_map]
    exact List.flatMap_congr fun row _ => numbersIn_row row
  rw [hrows, List.flatMap_def]
  exact (List.map_flatten ..).symm

end Initializer

/-- The arrays and tables a node is written as. -/
def initializers (loader : Loader) (mode : Mode) : Node → List Initializer
  | .array name values => [.array name values]
  | .embedTraining data =>
    match mode, loader.dataset data with
    | .embed, .ok dataset =>
      [.table "INPUT_DATA" (dataset.pairs.map Pair.input),
        .table "IDEAL_DATA" (dataset.pairs.map Pair.ideal)]
    | _, _ => []
  | _ => []

/-- The numbers a node is written with. -/
def writtenValues (loader : Loader) (mode : Mode) : Node → List Binary64
  | .array _ values => values
  | .embedTraining data =>
    match mode, loader.dataset data with
    | .embed, .ok dataset => dataset.pairs.flatMap Pair.input ++ dataset.pairs.flatMap Pair.ideal
    | _, _ => []
  | _ => []

variable {loader : Loader} {mode : Mode}

/-- **Read from their lines, the arrays and tables of a node hold its numbers**, in their order. -/
theorem numbers_initializers (node : Node) :
    (initializers loader mode node).flatMap Initializer.numbers =
      numerals (writtenValues loader mode node) := by
  cases node with
  | array name values =>
    exact (List.append_nil _).trans (Initializer.numbers_array name values)
  | embedTraining data =>
    cases mode with
    | link => rfl
    | embed =>
      simp only [initializers, writtenValues]
      cases loader.dataset data with
      | error cause => rfl
      | ok dataset =>
        simp only [List.flatMap_cons, List.flatMap_nil, List.append_nil,
          Initializer.numbers_table]
        rw [numerals, numerals, numerals, List.map_append, List.flatMap_def, List.flatMap_def]
  | _ => rfl

/-- Each of them is written in one piece. -/
theorem initializers_within {node : Node} {block : Initializer} (depth : Nat)
    (h : block ∈ initializers loader mode node) :
    Layout.braced depth block.opening block.lines "\x7d;" <:+:
      Layout.ofNode loader mode depth node := by
  cases node with
  | array name values =>
    obtain rfl := List.mem_singleton.mp h
    exact List.infix_rfl
  | embedTraining data =>
    cases mode with
    | link => cases h
    | embed =>
      simp only [initializers] at h
      rw [Layout.ofNode]
      simp only [Layout.trainingData]
      cases hload : loader.dataset data with
      | error cause =>
        rw [hload] at h
        cases h
      | ok dataset =>
        rw [hload] at h
        rcases List.mem_cons.mp h with rfl | hsecond
        · simp only [List.append_assoc]
          exact (List.prefix_append _ _).isInfix
        · obtain rfl := List.mem_singleton.mp hsecond
          exact (List.suffix_append _ _).isInfix
  | _ => cases h

end Java

open Java

variable {loader : Loader} {options : Options} {program : Program} {source : Source}

/-- **When the numbers of a written program are literals of doubles.** Each array and table of a
program is written in one piece, its lines hold the texts of its numbers and no others, and all of
these texts are literals exactly if no number is rounded to an integer of more than thirty-two
bits. -/
theorem number_literals_iff (h : Writes loader options program source) :
    (∀ place ∈ program.located, ∀ block ∈ initializers loader options.mode place.2,
      ∃ depth, (Layout.braced depth block.opening block.lines "\x7d;").map
        (Entry.row options.width) <:+: source.body) ∧
    (∀ place ∈ program.located,
      (initializers loader options.mode place.2).flatMap Initializer.numbers =
        numerals (writtenValues loader options.mode place.2)) ∧
    ((∀ place ∈ program.located, ∀ block ∈ initializers loader options.mode place.2,
      ∀ number ∈ block.numbers, Decimal.AsDouble number) ↔
      ∀ place ∈ program.located, ∀ x ∈ writtenValues loader options.mode place.2,
        FitsLiteral x) := by
  refine ⟨fun place hplace block hblock => ?_, fun place _ => numbers_initializers place.2, ?_⟩
  · obtain ⟨depth, hnode⟩ := Layout.ofNode_within loader options.mode 0 hplace
    rw [h.body_eq]
    exact ⟨depth, ((initializers_within depth hblock).trans hnode).map _⟩
  · refine forall₂_congr fun place _ => ?_
    have hnumbers : (∀ block ∈ initializers loader options.mode place.2,
        ∀ number ∈ block.numbers, Decimal.AsDouble number) ↔
        ∀ number ∈ (initializers loader options.mode place.2).flatMap Initializer.numbers,
          Decimal.AsDouble number := by
      simp only [List.mem_flatMap]
      grind
    rw [hnumbers, numbers_initializers, numerals, List.forall_mem_map]
    exact forall₂_congr fun x _ => asDouble_numberText_iff x

/-- An array and tables whose numbers are literals, the largest integer among them. -/
theorem number_literals_iff_largest :
    let loader : Loader :=
      ⟨fun _ => .ok default,
        fun _ => .ok ⟨[⟨[⟨0x3fe0000000000000⟩], [⟨0xbff0000000000000⟩]⟩],
          Dataset.fault?_eq_none_iff.mp rfl⟩⟩
    let program : Program :=
      ⟨[.classDecl "A" [.array "W" [⟨0x41dfffffffc00000⟩], .embedTraining ⟨"d.egb"⟩]]⟩
    ∃ source, Writes loader ⟨.embed, 4⟩ program source ∧
      ∀ place ∈ program.located, ∀ block ∈ initializers loader .embed place.2,
        ∀ number ∈ block.numbers, Decimal.AsDouble number := by
  intro loader program
  obtain ⟨source, hwrites⟩ : ∃ source, Writes loader ⟨.embed, 4⟩ program source :=
    ⟨_, _, Or.inl (generate?_of_writable (writable_of_places 2 (by decide) (by decide))), rfl⟩
  have hsmall : ∀ place ∈ program.located, ∀ x ∈ writtenValues loader .embed place.2,
      x.numerator ≤ 2147483647 * x.denominator := by
    decide
  exact ⟨source, hwrites, (number_literals_iff hwrites).2.2.mpr fun place hplace x hx =>
    fitsLiteral_of_le (hsmall place hplace x hx)⟩

/-- Ten billion is written without a point, and as an integer it is too large. -/
theorem ten_billion_is_no_literal :
    let loader : Loader := ⟨fun _ => .ok default, fun _ => .ok default⟩
    let program : Program := ⟨[.array "W" [⟨0x4202a05f20000000⟩]]⟩
    ∃ source, generate? loader ⟨.link, 4⟩ program = some ⟨.ok source, []⟩ ∧
      source.body = ["public static final double[] W = \x7b", "    10000000000", "\x7d;"] ∧
      ¬ Decimal.AsDouble "10000000000".toList := by
  intro loader program
  have htext : numberText defaultPrecision ⟨0x4202a05f20000000⟩ = "10000000000" := by decide
  have hlines : batchLines defaultPrecision arrayBatch [⟨0x4202a05f20000000⟩] =
      ["10000000000"] := by
    simp [batchLines, groups, commaLines, htext]
  obtain ⟨source, hrun⟩ : ∃ source,
      generate? loader ⟨.link, 4⟩ program = some ⟨.ok source, []⟩ :=
    ⟨_, generate?_of_writable (writable_of_places 1 (by decide) (by decide))⟩
  have hwrites : Writes loader ⟨.link, 4⟩ program source := ⟨_, Or.inl hrun, rfl⟩
  refine ⟨source, hrun, ?_, ?_⟩
  · rw [hwrites.body_eq]
    change (Layout.braced 0 _ (batchLines defaultPrecision arrayBatch [⟨0x4202a05f20000000⟩]) _ ++
      []).map (Entry.row 4) = _
    rw [hlines]
    decide
  · rintro (hpoint | ⟨i, hvalue, -, hi⟩)
    · exact absurd hpoint (by decide)
    · have hletters : Decimal.textValue "10000000000".toList = 10000000000 := by
        simp [Decimal.textValue, Decimal.unsignedValue, Decimal.behindPoint,
          Nat.ofDigitChars_cons]
      rw [hletters] at hvalue
      have hlarge : (10000000000 : ℤ) = i := by exact_mod_cast hvalue
      omega

end NetScribe
