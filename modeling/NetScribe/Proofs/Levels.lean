import Mathlib.Data.List.Infix
import Mathlib.Order.Bounds.Basic
import NetScribe.Proofs.Script

/-!
# Steps on a page, from any depth

A run of steps depends on the page it starts on in two ways: the rows it writes are moved to the
right by the depth of the page, and closing lines lower the depth only as far as zero.

Where no beginning of the steps closes more blocks than it has opened, zero is never in the way:
the rows are those of an empty page, moved (`written_add`), and the depth is counted
(`Covered.depth_run`). Without that condition the depth is a walk held back at zero. Each step is
`max (depth + change) 0` (`leaves_eq_max`), and a run of them is the largest of what the ends of the
steps add up to, or of the whole walk from the depth it started at (`isGreatest_depth_run`).
-/

namespace NetScribe.Java.Page

namespace Step

/-- The step opens a block. -/
def opens : Step → Bool
  | opening _ => true
  | _ => false

/-- The step closes a block. -/
def closes : Step → Bool
  | closing _ => true
  | _ => false

/-- The row a step at a depth writes. -/
def row (width depth : Nat) : Step → String
  | line text => indentation width depth ++ text
  | blank => ""
  | opening text => indentation width depth ++ text
  | closing text => indentation width (depth - 1) ++ text

/-- A row this step has written, moved to the right; an empty line has nothing to move. -/
def moved (blanks : Nat) : Step → String → String
  | blank, row => row
  | _, row => String.ofList (List.replicate blanks ' ') ++ row

end Step

/-- How many blocks the steps open. -/
def opened (steps : List Step) : Nat := steps.countP Step.opens

/-- How many blocks the steps close. -/
def closed (steps : List Step) : Nat := steps.countP Step.closes

/-- What the steps add to the depth where zero does not hold them back. -/
def net (steps : List Step) : Int := opened steps - closed steps

/-- The rows of steps that start at a depth. -/
def written (width : Nat) : Nat → List Step → List String
  | _, [] => []
  | depth, step :: rest => step.row width depth :: written width (step.leaves depth) rest

/-- No beginning of the steps closes more blocks than the depth and what it has opened. -/
def Covered (depth : Nat) (steps : List Step) : Prop :=
  ∀ first, first <+: steps → closed first ≤ depth + opened first

variable {steps first second : List Step} {step : Step} {depth : Nat}

/-! ## Counting -/

@[simp] theorem opened_nil : opened [] = 0 := rfl

@[simp] theorem closed_nil : closed [] = 0 := rfl

@[simp] theorem opened_append (first second : List Step) :
    opened (first ++ second) = opened first + opened second :=
  List.countP_append

@[simp] theorem closed_append (first second : List Step) :
    closed (first ++ second) = closed first + closed second :=
  List.countP_append

theorem opened_cons (step : Step) (rest : List Step) :
    opened (step :: rest) = opened [step] + opened rest :=
  opened_append [step] rest

theorem closed_cons (step : Step) (rest : List Step) :
    closed (step :: rest) = closed [step] + closed rest :=
  closed_append [step] rest

theorem net_cons (step : Step) (rest : List Step) : net (step :: rest) = net [step] + net rest := by
  rw [net, opened_cons, closed_cons, net, net]
  omega

theorem closed_of_closes (h : step.closes = true) : closed [step] = 1 ∧ opened [step] = 0 := by
  cases step with
  | closing text => exact ⟨rfl, rfl⟩
  | _ => cases h

/-- A step moves the depth by what it opens and closes, except that a closing line stays at zero. -/
theorem leaves_add (h : step.closes = true → 0 < depth) :
    step.leaves depth + closed [step] = depth + opened [step] := by
  cases step with
  | line text => rfl
  | blank => rfl
  | opening text => rfl
  | closing text => exact Nat.sub_add_cancel (h rfl)

/-- **The depth behind a step**: what it opens and closes is counted, but not below zero. -/
theorem leaves_eq_max (depth : Nat) (step : Step) :
    (step.leaves depth : Int) = max (depth + net [step]) 0 := by
  rw [net]
  by_cases h : step.closes = true → 0 < depth
  · have := leaves_add h
    omega
  · obtain ⟨hcloses, hzero⟩ := Classical.not_imp.mp h
    obtain rfl : depth = 0 := by omega
    cases step with
    | closing text => rfl
    | _ => cases hcloses

/-! ## Runs -/

theorem run_cons (page : Page) (step : Step) (rest : List Step) :
    page.run (step :: rest) = (page.step step).run rest := rfl

theorem lines_step_eq (page : Page) (step : Step) :
    (page.step step).lines = page.lines ++ [step.row page.width page.depth] := by
  cases step <;> simp [Step.row]

/-- **Each step of a run writes one row.** -/
theorem lines_run (page : Page) (steps : List Step) :
    (page.run steps).lines = page.lines ++ written page.width page.depth steps := by
  induction steps generalizing page with
  | nil => simp [written]
  | cons step rest ih =>
    rw [run_cons, ih, lines_step_eq, width_step, depth_step_eq, List.append_assoc,
      List.singleton_append, written]

@[simp] theorem length_written (width depth : Nat) (steps : List Step) :
    (written width depth steps).length = steps.length := by
  induction steps generalizing depth with
  | nil => rfl
  | cons step rest ih => rw [written, List.length_cons, List.length_cons, ih]

/-! ## Covered steps -/

namespace Covered

theorem mono {lower higher : Nat} (h : Covered lower steps) (hle : lower ≤ higher) :
    Covered higher steps := by
  intro first hfirst
  have := h first hfirst
  omega

theorem of_prefix (h : Covered depth steps) (hfirst : first <+: steps) : Covered depth first :=
  fun part hpart => h part (hpart.trans hfirst)

/-- **Covered steps, one at a time**: the first does not close at depth zero, and the others are
covered from where it leaves. -/
theorem cons_iff {rest : List Step} :
    Covered depth (step :: rest) ↔
      (step.closes = true → 0 < depth) ∧ Covered (step.leaves depth) rest := by
  constructor
  · intro h
    have hcloses : step.closes = true → 0 < depth := by
      intro hstep
      obtain ⟨hclosed, hopened⟩ := closed_of_closes hstep
      have hfirst := h [step] (List.prefix_append [step] rest)
      omega
    refine ⟨hcloses, fun part hpart => ?_⟩
    have hcount := h (step :: part) ((List.prefix_cons_inj step).mpr hpart)
    have hleaves := leaves_add hcloses
    rw [closed_cons, opened_cons] at hcount
    omega
  · rintro ⟨hcloses, hrest⟩ part hpart
    rcases List.prefix_cons_iff.mp hpart with rfl | ⟨tail, rfl, htail⟩
    · simp
    · have hcount := hrest tail htail
      have hleaves := leaves_add hcloses
      rw [closed_cons, opened_cons]
      omega

/-- **The depth behind covered steps is counted.** -/
theorem depth_run {page : Page} (h : Covered page.depth steps) :
    (page.run steps).depth + closed steps = page.depth + opened steps := by
  induction steps generalizing page with
  | nil => simp
  | cons step rest ih =>
    obtain ⟨hcloses, hrest⟩ := cons_iff.mp h
    rw [← depth_step_eq] at hrest
    have hdepth := ih hrest
    rw [depth_step_eq] at hdepth
    have hleaves := leaves_add hcloses
    rw [run_cons, closed_cons, opened_cons]
    omega

end Covered

/-! ## Moving a run to the right -/

theorem indentation_add (width base depth : Nat) :
    indentation width (base + depth) =
      String.ofList (List.replicate (width * base) ' ') ++ indentation width depth := by
  rw [indentation, indentation, Nat.mul_add, ← List.replicate_append_replicate,
    String.ofList_append]

/-- One step at a greater depth: its row is moved, and it leaves as much deeper. A closing line at
depth zero is not covered, since it could not leave less. -/
theorem row_add (width base : Nat) (h : step.closes = true → 0 < depth) :
    step.row width (base + depth) = step.moved (width * base) (step.row width depth) ∧
      step.leaves (base + depth) = base + step.leaves depth := by
  cases step with
  | line text => simp [Step.row, Step.moved, Step.leaves, indentation_add, String.append_assoc]
  | blank => simp [Step.row, Step.moved, Step.leaves]
  | opening text =>
    refine ⟨?_, Nat.add_assoc base depth 1⟩
    simp [Step.row, Step.moved, indentation_add, String.append_assoc]
  | closing text =>
    have hpos : 0 < depth := h rfl
    have hsub : base + depth - 1 = base + (depth - 1) := by omega
    refine ⟨?_, hsub⟩
    simp [Step.row, Step.moved, hsub, indentation_add, String.append_assoc]

/-- **Covered steps write the same rows from a greater depth, moved to the right.** -/
theorem written_add (width base : Nat) (h : Covered depth steps) :
    written width (base + depth) steps =
      List.zipWith (Step.moved (width * base)) steps (written width depth steps) := by
  induction steps generalizing depth with
  | nil => rfl
  | cons step rest ih =>
    obtain ⟨hcloses, hrest⟩ := Covered.cons_iff.mp h
    obtain ⟨hrow, hleaves⟩ := row_add width base hcloses
    rw [written, written, List.zipWith_cons_cons, hrow, hleaves, ih hrest]

/-! ## The walk held back at zero -/

/-- **The depth behind any steps** is the largest that an end of the steps adds up to, or the whole
walk from the depth of the page. The induction takes one step off the front: held back at zero, the
walk starts anew, and then what is left is an end of the steps. -/
theorem isGreatest_depth_run (page : Page) (steps : List Step) :
    IsGreatest (insert (page.depth + net steps) {k | ∃ last, last <:+ steps ∧ k = net last})
      ((page.run steps).depth : Int) := by
  induction steps generalizing page with
  | nil =>
    refine ⟨Or.inl (by simp [net]), ?_⟩
    rintro k (rfl | ⟨last, hlast, rfl⟩)
    · simp [net]
    · rw [List.suffix_nil.mp hlast]
      simp [net]
  | cons step rest ih =>
    obtain ⟨hmem, hbound⟩ := ih (page.step step)
    have hleaves := leaves_eq_max page.depth step
    have hnet := net_cons step rest
    rw [depth_step_eq] at hmem hbound
    have hwalk := hbound (Set.mem_insert _ _)
    rw [run_cons]
    constructor
    · rcases hmem with heq | ⟨last, hlast, heq⟩
      · rcases Int.le_total 0 (page.depth + net [step]) with hfree | hheld
        · exact Or.inl (by omega)
        · exact Or.inr ⟨rest, List.suffix_cons step rest, by omega⟩
      · exact Or.inr ⟨last, hlast.trans (List.suffix_cons step rest), heq⟩
    · rintro k (rfl | ⟨last, hlast, rfl⟩)
      · omega
      · rcases List.suffix_cons_iff.mp hlast with rfl | hlast
        · omega
        · exact hbound (Or.inr ⟨last, hlast, rfl⟩)

-- the second closing line finds nothing to close, and the walk starts anew behind it
example : ((empty 4).run [.opening "a", .closing "b", .closing "c", .opening "d"]).depth = 1 := by
  decide

/-- **What steps do to a page of any depth.** Each step adds one line. Where no beginning of the
steps closes more blocks than it has opened, the page gets the rows that the steps write on an empty
page of its width, each but the empty lines moved to the right by its own blanks, and its depth
grows by the blocks opened and not closed. Whatever the steps, the depth ends at the largest of what
an end of the steps opens and does not close, and of the depth of the page with all of them. -/
theorem run_from_any_depth (page : Page) (steps : List Step) :
    (∀ first step, ∃ row, (page.run (first ++ [step])).lines = (page.run first).lines ++ [row]) ∧
      (page.run steps).lines.length = page.lines.length + steps.length ∧
      ((∀ first, first <+: steps → closed first ≤ opened first) →
        (page.run steps).lines = page.lines ++
          List.zipWith (Step.moved (page.width * page.depth)) steps
            ((empty page.width).run steps).lines ∧
        ((page.run steps).depth : Int) = page.depth + opened steps - closed steps) ∧
      IsGreatest
        (insert (page.depth + opened steps - closed steps : Int)
          {k | ∃ last, last <:+ steps ∧ k = (opened last : Int) - closed last})
        ((page.run steps).depth : Int) := by
  refine ⟨fun first step => ?_, ?_, fun h => ?_, ?_⟩
  · rw [run_append]
    exact ⟨_, lines_step_eq (page.run first) step⟩
  · rw [lines_run, List.length_append, length_written]
  · have hcovered : Covered 0 steps := fun first hfirst => by
      rw [Nat.zero_add]
      exact h first hfirst
    have hfresh : ((empty page.width).run steps).lines = written page.width 0 steps :=
      lines_run (empty page.width) steps
    have hdepth := (hcovered.mono (Nat.zero_le page.depth)).depth_run
    refine ⟨?_, by omega⟩
    rw [lines_run, hfresh, ← written_add page.width page.depth hcovered, Nat.add_zero]
  · rw [Int.add_sub_assoc]
    exact isGreatest_depth_run page steps

/-- A block with an empty line in it, written three deep behind a line that is there. -/
theorem run_from_any_depth_block :
    let page : Page := { width := 2, depth := 3, rows := #["a"] }
    let steps : List Step := [.opening "f() \x7b", .blank, .line "b;", .closing "\x7d"]
    (∀ first, first <+: steps → closed first ≤ opened first) ∧
      (page.run steps).lines =
        ["a", "      f() \x7b", "", "        b;", "      \x7d"] ∧
      ((page.run steps).depth : Int) = 3 := by
  intro page steps
  have hcovered : ∀ first, first <+: steps → closed first ≤ opened first := by
    intro first hfirst
    rw [← List.mem_inits] at hfirst
    revert first
    decide
  obtain ⟨hlines, hdepth⟩ := (run_from_any_depth page steps).2.2.1 hcovered
  exact ⟨hcovered, hlines.trans (by decide), hdepth.trans (by decide)⟩

end NetScribe.Java.Page
