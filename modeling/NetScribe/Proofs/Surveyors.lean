import NetScribe.Proofs.Warnings

/-!
# Surveys by any visitors

An ordinary survey is made by three visitors in a fixed order. Here any list of them goes through a
program, each as often as it is listed, with visitors that do nothing among them. They all write
into one survey, but each only adds to lists of its own and reads nothing of what is there: what a
visitor adds is a survey of its own (`Surveyor.findings`), and a walk puts it behind what was found
before (`Surveyor.visit_eq`). From this one step a run over a list follows by induction
(`of_surveyors`): the survey repeats the findings of each visitor once for each time it is listed,
so the order of the list cannot be seen.
-/

namespace NetScribe

/-- The visitors that a survey can be made by. -/
inductive Surveyor where
  /-- Notes the main functions. -/
  | mains
  /-- Notes the constants that are quoted although their type is not `String`. -/
  | consts
  /-- Notes arrays, networks and training data. -/
  | resources
  /-- Looks at every node and does nothing. -/
  | idle
  deriving DecidableEq, Repr

/-- Findings behind other findings. -/
def Survey.andThen (first second : Survey) : Survey where
  mainFunctions := first.mainFunctions ++ second.mainFunctions
  quotedConsts := first.quotedConsts ++ second.quotedConsts
  arrayNames := first.arrayNames ++ second.arrayNames
  networks := first.networks ++ second.networks
  embedsTraining := first.embedsTraining || second.embedsTraining
  trainingLoaders := first.trainingLoaders ++ second.trainingLoaders

@[simp] theorem Survey.andThen_empty (survey : Survey) : survey.andThen {} = survey := by
  simp [Survey.andThen]

@[simp] theorem Survey.empty_andThen (survey : Survey) : Survey.andThen {} survey = survey := by
  simp [Survey.andThen]

theorem Survey.andThen_assoc (first second third : Survey) :
    (first.andThen second).andThen third = first.andThen (second.andThen third) := by
  simp [Survey.andThen, Bool.or_assoc]

/-- A visitor that does nothing leaves any state as it was. -/
theorem Visitor.visit_default {σ : Type} (program : Program) (state : σ) :
    Visitor.visit {} program state = state := by
  have hplain : ({} : Visitor σ).Plain := ⟨fun _ _ _ => rfl, fun _ _ _ => rfl⟩
  rw [hplain.visit_eq]
  induction program.located with
  | nil => rfl
  | cons place rest ih => exact ih

namespace Surveyor

/-- The visitor itself. -/
def visitor : Surveyor → Visitor Survey
  | mains => Survey.mains
  | consts => Survey.consts
  | resources => Survey.resources
  | idle => {}

/-- What a visitor finds in a program. -/
def findings (program : Program) : Surveyor → Survey
  | mains => { mainFunctions := program.mainPaths }
  | consts => { quotedConsts := program.quotedConsts }
  | resources =>
    { arrayNames := program.arrayNames
      networks := program.networkPaths
      embedsTraining := program.embedsTraining
      trainingLoaders := program.loaderPaths }
  | idle => {}

/-- **A walk puts the findings of its visitor behind what was found before.** -/
theorem visit_eq (surveyor : Surveyor) (program : Program) (survey : Survey) :
    surveyor.visitor.visit program survey = survey.andThen (surveyor.findings program) := by
  cases surveyor with
  | mains => simp [visitor, findings, Survey.visit_mains, Survey.andThen]
  | consts => simp [visitor, findings, Survey.visit_consts, Survey.andThen]
  | resources => simp [visitor, findings, Survey.visit_resources, Survey.andThen]
  | idle => rw [visitor, Visitor.visit_default, findings, Survey.andThen_empty]

/-- A list as many times over as a visitor is listed. -/
def repeated {α : Type} (surveyors : List Surveyor) (surveyor : Surveyor) (list : List α) :
    List α :=
  (List.replicate (surveyors.count surveyor) list).flatten

section Repeated

variable {α : Type} (surveyors : List Surveyor) {surveyor other : Surveyor} (list : List α)

@[simp] theorem repeated_nil : repeated [] surveyor list = [] := rfl

@[simp] theorem repeated_cons_self :
    repeated (surveyor :: surveyors) surveyor list = list ++ repeated surveyors surveyor list := by
  rw [repeated, List.count_cons_self, List.replicate_succ, List.flatten_cons, repeated]

theorem repeated_cons_of_ne (h : other ≠ surveyor) :
    repeated (other :: surveyors) surveyor list = repeated surveyors surveyor list := by
  rw [repeated, List.count_cons_of_ne h, repeated]

end Repeated

/-- The findings of all visitors of a list, each as often as it is listed. -/
def tally (program : Program) (surveyors : List Surveyor) : Survey where
  mainFunctions := repeated surveyors mains program.mainPaths
  quotedConsts := repeated surveyors consts program.quotedConsts
  arrayNames := repeated surveyors resources program.arrayNames
  networks := repeated surveyors resources program.networkPaths
  embedsTraining := decide (resources ∈ surveyors) && program.embedsTraining
  trainingLoaders := repeated surveyors resources program.loaderPaths

@[simp] theorem tally_nil (program : Program) : tally program [] = {} := rfl

/-- One more visitor in front adds its findings in front. -/
theorem tally_cons (program : Program) (surveyor : Surveyor) (rest : List Surveyor) :
    tally program (surveyor :: rest) =
      (surveyor.findings program).andThen (tally program rest) := by
  cases surveyor with
  | mains => simp [tally, findings, Survey.andThen, repeated_cons_of_ne]
  | consts => simp [tally, findings, Survey.andThen, repeated_cons_of_ne]
  | resources =>
    have habsorb : (program.embedsTraining ||
        decide (resources ∈ rest) && program.embedsTraining) = program.embedsTraining := by
      cases program.embedsTraining <;> simp
    simp [tally, findings, Survey.andThen, repeated_cons_of_ne, habsorb]
  | idle => simp [tally, findings, Survey.andThen, repeated_cons_of_ne]

/-- What a list of visitors adds to a survey is its tally. -/
theorem foldl_visit (program : Program) (surveyors : List Surveyor) (survey : Survey) :
    (surveyors.map visitor).foldl (fun survey visitor => visitor.visit program survey) survey =
      survey.andThen (tally program surveyors) := by
  induction surveyors generalizing survey with
  | nil => simp
  | cons surveyor rest ih =>
    rw [List.map_cons, List.foldl_cons, ih, visit_eq, tally_cons, Survey.andThen_assoc]

/-- **The survey by a list of visitors is its tally.** -/
theorem of_surveyors (program : Program) (surveyors : List Surveyor) :
    Survey.of (surveyors.map visitor) program = tally program surveyors := by
  rw [Survey.of, foldl_visit, Survey.empty_andThen]

/-- A tally counts visitors, so their order does not matter. -/
theorem tally_perm (program : Program) {surveyors surveyors' : List Surveyor}
    (h : surveyors.Perm surveyors') : tally program surveyors = tally program surveyors' := by
  have hrepeated : ∀ {α : Type} (surveyor : Surveyor) (list : List α),
      repeated surveyors surveyor list = repeated surveyors' surveyor list := by
    intro α surveyor list
    rw [repeated, h.count_eq, repeated]
  have hmem : decide (resources ∈ surveyors) = decide (resources ∈ surveyors') :=
    decide_eq_decide.mpr h.mem_iff
  simp only [tally, hrepeated, hmem]

end Surveyor

/-- **What a survey counts.** Whatever visitors make it, in whatever order, a survey lists the
places of the main functions once for each visitor that notes them, and so the quoted constants and
the arrays, networks and training data; embedded training data is noted if some visitor looks for
it and there is any in the tree. Visitors in another order make the same survey, which is checked
with the same result. -/
theorem survey_counts_visitors (program : Program) (surveyors : List Surveyor) :
    let survey := Survey.of (surveyors.map Surveyor.visitor) program
    survey.mainFunctions = Surveyor.repeated surveyors .mains program.mainPaths ∧
      survey.quotedConsts = Surveyor.repeated surveyors .consts program.quotedConsts ∧
      survey.arrayNames = Surveyor.repeated surveyors .resources program.arrayNames ∧
      survey.networks = Surveyor.repeated surveyors .resources program.networkPaths ∧
      survey.trainingLoaders = Surveyor.repeated surveyors .resources program.loaderPaths ∧
      (survey.embedsTraining = true ↔
        .resources ∈ surveyors ∧
          ∃ labels data, Node.Leads program.nodes labels (.embedTraining data)) ∧
      ∀ surveyors', surveyors.Perm surveyors' →
        Survey.of (surveyors'.map Surveyor.visitor) program = survey ∧
          ∀ mode, (Survey.of (surveyors'.map Surveyor.visitor) program).check mode =
            survey.check mode := by
  intro survey
  have hsurvey : survey = Surveyor.tally program surveyors :=
    Surveyor.of_surveyors program surveyors
  have hembeds : program.embedsTraining = true ↔
      ∃ labels data, Node.Leads program.nodes labels (.embedTraining data) := by
    rw [Program.embedsTraining_iff]
    constructor
    · rintro ⟨path, data, hplace⟩
      exact ⟨path.labels, data, Program.mem_located.mp hplace⟩
    · rintro ⟨labels, data, hlead⟩
      exact ⟨⟨labels⟩, data, Program.mem_located.mpr hlead⟩
  rw [hsurvey]
  refine ⟨rfl, rfl, rfl, rfl, rfl, ?_, fun surveyors' hperm => ?_⟩
  · rw [← hembeds, Surveyor.tally, Bool.and_eq_true, decide_eq_true_iff]
  · have hsame := (Surveyor.of_surveyors program surveyors').trans
      (Surveyor.tally_perm program hperm).symm
    exact ⟨hsame, fun mode => by rw [hsame]⟩

/-- Two visitors that look for resources and one that does nothing: arrays and networks are listed
twice over, and nothing is noted of the main function. -/
theorem survey_counts_visitors_twice :
    let program : Program :=
      ⟨[.mainFunction [], .classDecl "A"
        [.array "W" [], .network "net" ⟨"net.eg"⟩, .array "V" [], .embedTraining ⟨"x.egb"⟩]]⟩
    let surveyors : List Surveyor := [.resources, .idle, .resources, .consts]
    let surveyors' : List Surveyor := [.consts, .resources, .resources, .idle]
    let survey := Survey.of (surveyors.map Surveyor.visitor) program
    surveyors.Perm surveyors' ∧ survey.mainFunctions = [] ∧
      survey.arrayNames = ["W", "V", "W", "V"] ∧ survey.embedsTraining = true ∧
      Survey.of (surveyors'.map Surveyor.visitor) program = survey ∧
      survey.check .embed =
        .ok [⟨⟨["A", "net"]⟩, .missingWeights⟩, ⟨⟨["A", "net"]⟩, .missingWeights⟩] := by
  intro program surveyors surveyors' survey
  obtain ⟨hmains, -, harrays, -, -, hembeds, hperm⟩ := survey_counts_visitors program surveyors
  have horder : surveyors.Perm surveyors' := by decide
  have hlead : Node.Leads program.nodes ["A", "embed_training"] (.embedTraining ⟨"x.egb"⟩) :=
    .inside (List.mem_cons_of_mem _ List.mem_cons_self)
      (.here (List.getLast_mem (List.cons_ne_nil _ _)))
  exact ⟨horder, hmains, harrays, hembeds.mpr ⟨by decide, _, _, hlead⟩, (hperm _ horder).1, rfl⟩

end NetScribe
