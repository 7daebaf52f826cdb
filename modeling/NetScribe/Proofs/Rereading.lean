import NetScribe.Proofs.Dependence
import NetScribe.Proofs.Nearest

/-!
# Written numbers read back

A number is written as a decimal near it, and the decimal is read as a number near the decimal. The
two need not be the same number, but the second is at least as near to the decimal as the first, so
it is rounded to the same decimal again (`Nearest.roundsTo`) and has the same text, whichever of two
nearest numbers a reader takes (`numberText_reread`).

A program shows its numbers by their texts only. If each number in a tree and in its training data
is replaced by one with the same text (`KeepsTexts`), every leaf is written as before and the check
sees no difference, so every run is the same; reading the written numbers back is a case of this.
-/

namespace NetScribe

open Java

/-! ## Numbers with one decimal -/

namespace Binary64

variable {x y : Binary64} {places : ℕ} {n : ℤ}

/-- **A number nearest to a decimal is rounded to that decimal**, if any number is. -/
theorem Nearest.roundsTo (hx : x.isFinite = true) (hround : x.RoundsTo places n)
    (hy : Nearest (n / 10 ^ places) y) : y.RoundsTo places n := by
  have hpos : (0 : ℚ) < 10 ^ places := by positivity
  have hnearer : |y.value * 10 ^ places - n| ≤ |x.value * 10 ^ places - n| := by
    rw [abs_mul_sub hpos, abs_mul_sub hpos]
    exact mul_le_mul_of_nonneg_right (hy.2 x hx) hpos.le
  obtain ⟨hhalf, heven⟩ := hround
  refine ⟨hnearer.trans hhalf, fun htie => heven ?_⟩
  -- a number halfway off leaves no room for the other to be nearer
  exact le_antisymm hhalf (htie ▸ hnearer)

theorem value_zero : (⟨0⟩ : Binary64).value = 0 := by
  have hsignificand : (⟨0⟩ : Binary64).significand = 0 := by decide
  rw [value, hsignificand]
  simp

/-- The pattern of `2 ^ 52`, from which on all numbers are integers. -/
def wholeFrom : Binary64 := ⟨0x4330000000000000⟩

theorem magnitude_wholeFrom : wholeFrom.magnitude = 2 ^ 52 := by
  have hfields : wholeFrom.significand = 2 ^ 52 ∧ wholeFrom.exponent = 0 := by decide
  rw [magnitude, hfields.1, hfields.2]
  norm_num

/-- A number that is no integer is smaller than `2 ^ 52`, and an integer is rounded to itself; so no
decimal that a number is rounded to is larger than all numbers. -/
theorem RoundsTo.exists_le (hx : x.isFinite = true) (h : x.RoundsTo places n) :
    ∃ z : Binary64, z.isFinite = true ∧ |(n / 10 ^ places : ℚ)| ≤ |z.value| := by
  have hpos : (0 : ℚ) < 10 ^ places := by positivity
  rcases Int.lt_or_le x.exponent 0 with hfraction | hwhole
  · refine ⟨wholeFrom, by decide, ?_⟩
    have hsize : |x.value| ≤ (2 ^ 53 - 1) * (1 / 2) := by
      have hhalf : unit 1073 = 1 / 2 := by norm_num [unit]
      rw [abs_value, ← hhalf]
      exact magnitude_le_of_exponent (by omega)
    have hoff : |n / 10 ^ places - x.value| ≤ 1 / 2 := by
      have hunits : |n / 10 ^ places - x.value| * 10 ^ places ≤ 1 / 2 := by
        rw [abs_sub_comm, ← abs_mul_sub hpos]
        exact h.1
      have hone : (1 : ℚ) ≤ 10 ^ places := one_le_pow₀ (by norm_num)
      exact (le_mul_of_one_le_right (abs_nonneg _) hone).trans hunits
    have htriangle := abs_sub_abs_le_abs_sub (n / 10 ^ places : ℚ) x.value
    rw [abs_value, magnitude_wholeFrom]
    linarith
  · refine ⟨x, hx, ?_⟩
    obtain ⟨e, he⟩ := Int.eq_ofNat_of_zero_le hwhole
    have hinteger : x.value * 10 ^ places =
        (((if x.negative then -1 else 1) * x.significand * 2 ^ e * 10 ^ places : ℤ) : ℚ) := by
      rw [value, he, zpow_natCast]
      push_cast
      rfl
    have hself : NearestEven (x.value * 10 ^ places)
        ((if x.negative then -1 else 1) * x.significand * 2 ^ e * 10 ^ places) := by
      rw [NearestEven, ← hinteger, sub_self, abs_zero]
      exact ⟨by norm_num, fun htie => absurd htie (by norm_num)⟩
    rw [h.unique hself, ← hinteger, mul_div_cancel_right₀ _ hpos.ne']

end Binary64

/-! ## Texts read back -/

namespace Java

variable {read : String → Binary64}

/-- A reader of decimals gives a nearest number for every plain spelling of what is no larger than
all numbers. -/
def ReadsNearest (read : String → Binary64) : Prop :=
  ∀ text q x, Decimal.Spells (String.toList text) q → Binary64.isFinite x = true →
    |q| ≤ |x.value| → Binary64.Nearest q (read text)

theorem spells_zero : Decimal.Spells ['0'] 0 := by
  refine ⟨by decide, by decide, ?_⟩
  simp [Decimal.textValue, Decimal.unsignedValue, Decimal.behindPoint, Nat.ofDigitChars_cons]

/-- Zero has the text of what is no number. -/
theorem numberText_zero (precision : ℕ) : numberText precision ⟨0⟩ = "0" := by
  have hfinite : (⟨0⟩ : Binary64).isFinite = true := by decide
  have hround : (⟨0⟩ : Binary64).RoundsTo precision 0 := by
    rw [Binary64.RoundsTo, Binary64.value_zero, NearestEven]
    norm_num
  have hspells := spells_numberText hfinite hround
  rw [Int.cast_zero, zero_div] at hspells
  exact String.toList_injective (hspells.unique spells_zero)

/-- **A text that is read back is written again**, whichever nearest number it is read as. -/
theorem numberText_reread (hread : ReadsNearest read) (precision : ℕ) (x : Binary64) :
    numberText precision (read (numberText precision x)) = numberText precision x := by
  have hreread : ∀ x : Binary64, x.isFinite = true →
      numberText precision (read (numberText precision x)) = numberText precision x := by
    intro x hx
    have hround := x.roundsTo_scaled precision
    obtain ⟨z, hz, hrange⟩ := hround.exists_le hx
    have hnearest := hread _ _ z (spells_numberText hx hround) hz hrange
    exact (numberText_eq_iff hx hnearest.1 hround).mpr (hnearest.roundsTo hx hround)
  by_cases hx : x.isFinite = true
  · exact hreread x hx
  · have htext : numberText precision x = numberText precision ⟨0⟩ := by
      rw [numberText_zero, numberText, if_neg hx]
    rw [htext]
    exact hreread ⟨0⟩ (by decide)

/-- The text of what is no number is read as a number. -/
theorem isFinite_read_zero (hread : ReadsNearest read) : (read "0").isFinite = true :=
  (hread "0" 0 ⟨0⟩ spells_zero (by decide) (by simp)).1

end Java

/-! ## Other numbers in a program -/

section MapNumbers

variable (f : Binary64 → Binary64)

mutual

/-- A node with other numbers in it and below it. -/
def Node.mapNumbers (node : Node) : Node :=
  match node with
  | .classDecl name children => .classDecl name (mapNumbersAll children)
  | .mainFunction children => .mainFunction (mapNumbersAll children)
  | .staticFunction name children => .staticFunction name (mapNumbersAll children)
  | .array name values => .array name (values.map f)
  | leaf => leaf

@[inherit_doc Node.mapNumbers]
def Node.mapNumbersAll : List Node → List Node
  | [] => []
  | node :: rest => mapNumbers node :: mapNumbersAll rest

end

/-- A program with other numbers in its arrays. -/
def Program.mapNumbers (program : Program) : Program := ⟨Node.mapNumbersAll f program.nodes⟩

/-- A training example with other numbers. -/
def Pair.mapNumbers (pair : Pair) : Pair := ⟨pair.input.map f, pair.ideal.map f⟩

/-- Training data with other numbers; its shape is the same. -/
def Dataset.mapNumbers (dataset : Dataset) : Dataset where
  pairs := dataset.pairs.map (Pair.mapNumbers f)
  rectangular := by
    rw [Rectangular, List.head?_map]
    intro _ hmapped
    obtain ⟨first, hfirst, rfl⟩ := Option.map_eq_some_iff.mp hmapped
    refine List.forall_mem_map.mpr fun pair hpair => ?_
    simpa [Pair.SameShape, Pair.mapNumbers] using dataset.rectangular first hfirst pair hpair

/-- A loader that gives the same training data with other numbers. -/
def Loader.mapNumbers (loader : Loader) : Loader where
  model := loader.model
  dataset path := (loader.dataset path).map (Dataset.mapNumbers f)

end MapNumbers

variable {f : Binary64 → Binary64}

namespace Node

/-- A node with other numbers is what it was but for them. -/
theorem mapNumbers_shape (node : Node) :
    (node.mapNumbers f).label = node.label ∧
      (node.mapNumbers f).children = mapNumbersAll f node.children ∧
      opening? (node.mapNumbers f) = opening? node := by
  cases node <;> exact ⟨rfl, rfl, rfl⟩

/-- **The listing with other numbers** has the same places. -/
theorem locatedAll_mapNumbers (above : NodePath) (nodes : List Node) :
    locatedAll above (mapNumbersAll f nodes) =
      (locatedAll above nodes).map fun place => (place.1, place.2.mapNumbers f) := by
  induction nodes using forestInduction generalizing above with
  | nil => rfl
  | cons node rest below after =>
    obtain ⟨hlabel, hchildren, -⟩ := node.mapNumbers_shape (f := f)
    rw [mapNumbersAll, locatedAll_cons, locatedAll_cons, hlabel, hchildren, below, after,
      List.map_cons, List.map_append]

end Node

namespace Program

variable (program : Program)

theorem located_mapNumbers :
    (program.mapNumbers f).located =
      program.located.map fun place => (place.1, place.2.mapNumbers f) :=
  Node.locatedAll_mapNumbers .top program.nodes

/-- What can be told of a node without its numbers is told of the same places. -/
theorem filterMap_mapNumbers {β : Type} {g : NodePath × Node → Option β}
    (hg : ∀ path node, g (path, node.mapNumbers f) = g (path, node)) :
    (program.mapNumbers f).located.filterMap g = program.located.filterMap g := by
  rw [located_mapNumbers, List.filterMap_map]
  exact List.filterMap_congr fun place _ => hg place.1 place.2

/-- **The check does not read numbers.** -/
theorem check_mapNumbers (mode : Mode) :
    (program.mapNumbers f).mainPaths = program.mainPaths ∧
      (program.mapNumbers f).warnings mode = program.warnings mode := by
  have hconsts : (program.mapNumbers f).quotedConsts = program.quotedConsts :=
    program.filterMap_mapNumbers fun _ node => by cases node <;> rfl
  have harrays : (program.mapNumbers f).arrayNames = program.arrayNames :=
    program.filterMap_mapNumbers fun _ node => by cases node <;> rfl
  have hnetworks : (program.mapNumbers f).networkPaths = program.networkPaths :=
    program.filterMap_mapNumbers fun _ node => by cases node <;> rfl
  have hloaders : (program.mapNumbers f).loaderPaths = program.loaderPaths :=
    program.filterMap_mapNumbers fun _ node => by cases node <;> rfl
  have hembeds : (program.mapNumbers f).embedsTraining = program.embedsTraining := by
    rw [embedsTraining, located_mapNumbers, List.any_map]
    refine List.any_congr rfl fun place => ?_
    obtain ⟨path, node⟩ := place
    cases node <;> rfl
  refine ⟨program.filterMap_mapNumbers fun _ node => by cases node <;> rfl, ?_⟩
  rw [warnings, warnings, hconsts, harrays, hnetworks, hloaders, hembeds]

end Program

/-! ## Numbers with the same text -/

/-- Every number is replaced by one with the same text in a written program. -/
def KeepsTexts (f : Binary64 → Binary64) : Prop :=
  ∀ x, numberText defaultPrecision (f x) = numberText defaultPrecision x

namespace KeepsTexts

variable (h : KeepsTexts f)
include h

theorem map_numberText (values : List Binary64) :
    (values.map f).map (numberText defaultPrecision) =
      values.map (numberText defaultPrecision) := by
  rw [List.map_map]
  exact List.map_congr_left fun x _ => h x

theorem array_eq (name : String) (values : List Binary64) :
    Block.array name (values.map f) = Block.array name values := by
  rw [Block.array, Block.array, batchLines, batchLines, h.map_numberText]

theorem rows_eq (name : String) (rows : List (List Binary64)) :
    Block.rows name (rows.map (List.map f)) = Block.rows name rows := by
  simp only [Block.rows, List.map_map, Function.comp_def, numberList, h.map_numberText]

theorem trainingData_eq (dataset : Dataset) :
    Block.trainingData (dataset.mapNumbers f) = Block.trainingData dataset := by
  have hinputs : (dataset.mapNumbers f).pairs.map Pair.input =
      (dataset.pairs.map Pair.input).map (List.map f) := by
    simp [Dataset.mapNumbers, Pair.mapNumbers]
  have hideals : (dataset.mapNumbers f).pairs.map Pair.ideal =
      (dataset.pairs.map Pair.ideal).map (List.map f) := by
    simp [Dataset.mapNumbers, Pair.mapNumbers]
  rw [Block.trainingData, Block.trainingData, hinputs, hideals, h.rows_eq, h.rows_eq]

variable (loader : Loader) (mode : Mode)

/-- A leaf is written as before. -/
theorem leaf_eq (place : NodePath) (node : Node) :
    Script.leaf (loader.mapNumbers f) mode place (node.mapNumbers f) =
      Script.leaf loader mode place node := by
  cases node with
  | array name values =>
    exact congrArg Script.write (h.array_eq name values)
  | embedTraining data =>
    cases mode with
    | link => rfl
    | embed =>
      have hblock : dataBlock (loader.mapNumbers f) place data = dataBlock loader place data := by
        simp only [dataBlock, Loader.mapNumbers]
        cases loader.dataset data with
        | error fault => rfl
        | ok dataset => exact congrArg Except.ok (h.trainingData_eq dataset)
      exact congrArg (Script.request (.dataset data)) hblock
  | _ => rfl

/-- **A tree is written as before.** -/
theorem ofNodes_eq (above : NodePath) (nodes : List Node) :
    Script.ofNodes (loader.mapNumbers f) mode above (Node.mapNumbersAll f nodes) =
      Script.ofNodes loader mode above nodes := by
  induction nodes using Node.forestInduction generalizing above with
  | nil => rfl
  | cons node rest below after =>
    obtain ⟨hlabel, hchildren, hopening⟩ := node.mapNumbers_shape (f := f)
    rw [Node.mapNumbersAll, Script.ofNodes, Script.ofNodes, after]
    cases hleaf : opening? node with
    | none =>
      rw [Script.ofNode_leaf hleaf, Script.ofNode_leaf (hopening.trans hleaf), hlabel, h.leaf_eq]
    | some opening =>
      rw [Script.ofNode_container hleaf, Script.ofNode_container (hopening.trans hleaf), hlabel,
        hchildren, below]

/-- **Runs do not change with numbers that have the same text.** -/
theorem runs_eq (options : Options) (program : Program) :
    generate? (loader.mapNumbers f) options (program.mapNumbers f) =
        generate? loader options program ∧
      compile? (loader.mapNumbers f) options (program.mapNumbers f) =
        compile? loader options program := by
  have hscript : Script.ofProgram (loader.mapNumbers f) options.mode (program.mapNumbers f) =
      Script.ofProgram loader options.mode program :=
    h.ofNodes_eq loader options.mode .top program.nodes
  obtain ⟨hmains, hwarnings⟩ := program.check_mapNumbers (f := f) options.mode
  refine ⟨?_, compile?_congr hmains hwarnings hscript⟩
  rw [generate?, generate?, generate_congr hscript, writable_congr (congrArg Script.steps hscript)]

end KeepsTexts

/-- **Written numbers are stable.** Let a reader take every plain decimal, unless it is too large,
for a number nearest to it. Then every number, also what is none, has a text with as many places as
can be written, and what the text is read as has the same text. With more places a number has no
text; what is none is still written as zero, which is read as a number that cannot be written. And
if all numbers in the arrays and in the training data of a program are replaced by what their texts
are read as, every run, checked or not, is the same. -/
theorem written_numbers_are_stable (read : String → Binary64) (hread : ReadsNearest read) :
    (∀ precision ≤ maxPrecision, ∀ x, ∃ text, numberText? precision x = some text ∧
      numberText? precision (read text) = some text) ∧
    (∀ precision > maxPrecision, ∀ x,
      (x.isFinite = true → numberText? precision x = none) ∧
      (x.isFinite = false → numberText? precision x = some "0" ∧
        numberText? precision (read "0") = none)) ∧
    ∀ loader options program,
      let reread := fun x => read (numberText defaultPrecision x)
      generate? (Loader.mapNumbers reread loader) options (Program.mapNumbers reread program) =
          generate? loader options program ∧
        compile? (Loader.mapNumbers reread loader) options (Program.mapNumbers reread program) =
          compile? loader options program := by
  refine ⟨fun precision hplaces x => ?_, fun precision hplaces x => ⟨fun hx => ?_, fun hx => ?_⟩,
    fun loader options program => ?_⟩
  · refine ⟨numberText precision x, numberText?_of_le hplaces x, ?_⟩
    rw [numberText?_of_le hplaces, numberText_reread hread]
  · simp [numberText?, hx, hplaces]
  · simp [numberText?, numberText, hx, isFinite_read_zero hread, hplaces]
  · have hkeeps : KeepsTexts fun x => read (numberText defaultPrecision x) :=
      numberText_reread hread defaultPrecision
    exact hkeeps.runs_eq loader options program

/-- An eighth lies halfway between two hundredths and is read back as another number; so is a third,
with ten places, and still an array is written the same. -/
theorem written_numbers_are_stable_eighth :
    let read := fun text => Binary64.nearestTo (Decimal.textValue (String.toList text))
    let eighth : Binary64 := ⟨0x3fc0000000000000⟩
    let third : Binary64 := ⟨0x3fd5555555555555⟩
    let loader : Loader := ⟨fun _ => .ok default, fun _ => .ok default⟩
    ReadsNearest read ∧
      numberText? 2 eighth = some "0.12" ∧ numberText? 2 (read "0.12") = some "0.12" ∧
      numberText? 65536 ⟨0x7ff8000000000000⟩ = some "0" ∧ numberText? 65536 (read "0") = none ∧
      numberText defaultPrecision third = "0.3333333333" ∧
      compile? loader ⟨.link, 4⟩ ⟨[.array "W" [read "0.3333333333"]]⟩ =
        compile? loader ⟨.link, 4⟩ ⟨[.array "W" [third]]⟩ := by
  intro read eighth third loader
  have hread : ReadsNearest read := by
    rintro text q x ⟨-, -, rfl⟩ hx hrange
    exact Binary64.nearest_nearestTo hx hrange
  obtain ⟨hstable, hbeyond, hruns⟩ := written_numbers_are_stable read hread
  have heighth : numberText? 2 eighth = some "0.12" := by decide
  have hthird : numberText defaultPrecision third = "0.3333333333" := by decide
  obtain ⟨text, htext, hagain⟩ := hstable 2 (by decide) eighth
  obtain rfl : "0.12" = text := Option.some_inj.mp (heighth.symm.trans htext)
  obtain ⟨hzero, hrefused⟩ := (hbeyond 65536 (by decide) ⟨0x7ff8000000000000⟩).2 (by decide)
  refine ⟨hread, heighth, hagain, hzero, hrefused, hthird, ?_⟩
  rw [← hthird]
  exact (hruns loader ⟨.link, 4⟩ ⟨[.array "W" [third]]⟩).2

/-- What is no number is written as zero with any number of places. Zero is a number nearest to
what that text spells, and with `65536` places zero is not written. -/
theorem zero_refused_after_rereading :
    numberText? 65536 ⟨0x7ff8000000000000⟩ = some "0" ∧ Decimal.Spells "0".toList 0 ∧
      Binary64.Nearest 0 ⟨0⟩ ∧ numberText? 65536 ⟨0⟩ = none := by
  refine ⟨by decide, spells_zero, ⟨by decide, fun y _ => ?_⟩, by decide⟩
  rw [Binary64.value_zero, sub_self, abs_zero]
  exact abs_nonneg _

end NetScribe
