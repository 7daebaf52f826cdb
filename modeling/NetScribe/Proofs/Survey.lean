import NetScribe.Compile
import NetScribe.Proofs.Places

/-!
# What a survey finds

Three visitors note what they see in one survey, each on a walk of its own. Since each looks at
every node and only adds to its own lists, the survey of a program can be read off the listing of
its nodes: `Program.mainPaths` and its like are the listing, filtered. `visit_mains`,
`visit_consts` and `visit_resources` say what one walk adds to any survey, and `of_standard` puts
the three together.

The check reads nothing but the survey, so what it finds wrong is a property of the listing as well
(`check_standard`), and what is found anywhere in the tree counts everywhere.
-/

namespace NetScribe

namespace Program

/-! ## The listing, filtered -/

/-- The places of the main functions. -/
def mainPaths (program : Program) : List NodePath :=
  program.located.filterMap fun
    | (path, .mainFunction _) => some path
    | _ => none

/-- The places of the constants of a type other than `String`, with that type. -/
def quotedConsts (program : Program) : List (NodePath × String) :=
  program.located.filterMap fun
    | (path, .const _ typeName _) => if typeName = "String" then none else some (path, typeName)
    | _ => none

/-- The names of the arrays. -/
def arrayNames (program : Program) : List String :=
  program.located.filterMap fun
    | (_, .array name _) => some name
    | _ => none

/-- The places of the networks. -/
def networkPaths (program : Program) : List NodePath :=
  program.located.filterMap fun
    | (path, .network _ _) => some path
    | _ => none

/-- There is training data to be embedded. -/
def embedsTraining (program : Program) : Bool :=
  program.located.any fun
    | (_, .embedTraining _) => true
    | _ => false

/-- The places of the functions that give training data. -/
def loaderPaths (program : Program) : List NodePath :=
  program.located.filterMap fun
    | (path, .loadTraining _ _) => some path
    | _ => none

/-- The warnings a program deserves: its quoted constants; if it embeds, its networks unless weights
are declared somewhere, and its training data unless that is embedded somewhere. -/
def warnings (program : Program) (mode : Mode) : List Warning :=
  program.quotedConsts.map (fun (path, typeName) => ⟨path, .quotedConst typeName⟩) ++
  (if mode = .embed ∧ "WEIGHTS" ∉ program.arrayNames then
    program.networkPaths.map fun path => ⟨path, .missingWeights⟩ else []) ++
  (if mode = .embed ∧ program.embedsTraining = false then
    program.loaderPaths.map fun path => ⟨path, .missingTraining⟩ else [])

end Program

namespace Survey

/-! ## What one walk adds -/

theorem noting_plain (note : Node → NodePath → Survey → Survey) : (noting note).Plain :=
  ⟨fun _ _ _ => rfl, fun _ _ _ => rfl⟩

/-- A walk adds up what is added at each place. `gather` is what all the places of a list add. -/
theorem visit_noting {note : Node → NodePath → Survey → Survey}
    (gather : List (NodePath × Node) → Survey → Survey) (hnil : ∀ survey, gather [] survey = survey)
    (hcons : ∀ path node rest survey,
      gather ((path, node) :: rest) survey = gather rest (note node path survey))
    (program : Program) (survey : Survey) :
    (noting note).visit program survey = gather program.located survey := by
  rw [(noting_plain note).visit_eq]
  induction program.located generalizing survey with
  | nil => exact (hnil survey).symm
  | cons place rest ih =>
    obtain ⟨path, node⟩ := place
    rw [List.foldl_cons, ih, hcons]
    rfl

/-- The first visitor adds the main functions and nothing else. -/
theorem visit_mains (program : Program) (survey : Survey) :
    mains.visit program survey =
      { survey with mainFunctions := survey.mainFunctions ++ program.mainPaths } := by
  refine visit_noting (fun places survey => { survey with
    mainFunctions := survey.mainFunctions ++ places.filterMap _ }) ?_ ?_ program survey
  · intro survey
    simp
  · intro path node rest survey
    cases node <;> simp

/-- The second adds the quoted constants and nothing else. -/
theorem visit_consts (program : Program) (survey : Survey) :
    consts.visit program survey =
      { survey with quotedConsts := survey.quotedConsts ++ program.quotedConsts } := by
  refine visit_noting (fun places survey => { survey with
    quotedConsts := survey.quotedConsts ++ places.filterMap _ }) ?_ ?_ program survey
  · intro survey
    simp
  · intro path node rest survey
    cases node with
    | const name typeName value => by_cases h : typeName = "String" <;> simp [h]
    | _ => simp

/-- The third adds what embedding depends on and nothing else. -/
theorem visit_resources (program : Program) (survey : Survey) :
    resources.visit program survey =
      { survey with
        arrayNames := survey.arrayNames ++ program.arrayNames
        networks := survey.networks ++ program.networkPaths
        embedsTraining := survey.embedsTraining || program.embedsTraining
        trainingLoaders := survey.trainingLoaders ++ program.loaderPaths } := by
  refine visit_noting (fun places survey => { survey with
    arrayNames := survey.arrayNames ++ places.filterMap _
    networks := survey.networks ++ places.filterMap _
    embedsTraining := survey.embedsTraining || places.any _
    trainingLoaders := survey.trainingLoaders ++ places.filterMap _ }) ?_ ?_ program survey
  · intro survey
    simp
  · intro path node rest survey
    cases node <;> simp

/-- **The survey of a program is its listing, filtered.** -/
theorem of_standard (program : Program) :
    of standard program =
      { mainFunctions := program.mainPaths
        quotedConsts := program.quotedConsts
        arrayNames := program.arrayNames
        networks := program.networkPaths
        embedsTraining := program.embedsTraining
        trainingLoaders := program.loaderPaths } := by
  simp [of, standard, visit_mains, visit_consts, visit_resources]

/-! ## The check -/

/-- The warnings of a run are those the listing deserves. -/
theorem warnings_standard (program : Program) (mode : Mode) :
    (of standard program).warnings mode = program.warnings mode := by
  rw [of_standard]
  unfold Survey.warnings Program.warnings
  cases mode with
  | link => simp
  | embed =>
    by_cases hweights : "WEIGHTS" ∈ program.arrayNames
    · cases program.embedsTraining <;> simp [embedWarnings, hasArray, hweights]
    · cases program.embedsTraining <;> simp [embedWarnings, hasArray, hweights]

/-- **The check refuses more than one main function and warns otherwise.** -/
theorem check_standard (program : Program) (mode : Mode) :
    (of standard program).check mode =
      if 1 < program.mainPaths.length then .error (.duplicateMain program.mainPaths)
      else .ok (program.warnings mode) := by
  rw [check, warnings_standard, of_standard]

end Survey

/-! ## A run is checked before it is written -/

section Run

variable {loader : Loader} {options : Options} {program : Program}

/-- More than one main function ends a run before anything is written or asked for. -/
theorem compile_of_several (h : 1 < program.mainPaths.length) :
    compile loader options program = { result := .error (.duplicateMain program.mainPaths) } := by
  rw [compile, compileWith, Survey.check_standard, if_pos h]

/-- Otherwise the program is written, and the warnings are added to what was written. -/
theorem compile_of_single (h : program.mainPaths.length ≤ 1) :
    compile loader options program =
      { generate loader options program with
        result := (generate loader options program).result.map fun source =>
          { source with warnings := program.warnings options.mode } } := by
  rw [compile, compileWith, Survey.check_standard, if_neg (by omega)]

/-- A run comes to an end if it can be written or need not be, and then it is `compile`. -/
theorem compile?_eq :
    compile? loader options program =
      if 1 < program.mainPaths.length ∨ options.writable loader program = true then
        some (compile loader options program)
      else none := by
  by_cases hmains : 1 < program.mainPaths.length
  · rw [if_pos (Or.inl hmains), compile_of_several hmains, compile?, compileWith?,
      Survey.check_standard, if_pos hmains]
  · rw [compile?, compileWith?, Survey.check_standard, if_neg hmains]
    simp only [hmains, false_or]
    rfl

theorem isSome_compile? : (compile? loader options program).isSome ↔
    1 < program.mainPaths.length ∨ options.writable loader program := by
  rw [compile?_eq]
  split
  · next h => exact iff_of_true rfl h
  · next h => exact iff_of_false Bool.false_ne_true h

theorem compile?_of_writable (h : options.writable loader program) :
    compile? loader options program = some (compile loader options program) := by
  rw [compile?_eq, if_pos (Or.inr h)]

theorem compile?_eq_some {run : Generation} (h : compile? loader options program = some run) :
    run = compile loader options program := by
  rw [compile?_eq] at h
  split at h
  · exact (Option.some.inj h).symm
  · cases h

/-- **A run that succeeds had at most one main function**, was written, and returns the warnings its
program deserves. -/
theorem compile_eq_ok {source : Source} (h : (compile loader options program).result = .ok source) :
    program.mainPaths.length ≤ 1 ∧ source.warnings = program.warnings options.mode ∧
      ∃ written, (generate loader options program).result = .ok written ∧
        source.imports = written.imports ∧ source.body = written.body := by
  rcases Nat.lt_or_ge 1 program.mainPaths.length with hmains | hmains
  · rw [compile_of_several hmains] at h
    cases h
  · rw [compile_of_single hmains] at h
    cases hgen : (generate loader options program).result with
    | error failure =>
      rw [hgen] at h
      cases h
    | ok written =>
      rw [hgen] at h
      cases h
      exact ⟨hmains, rfl, written, rfl, rfl, rfl⟩

end Run

/-- **What the check of a program yields.** With more than one main function, at whatever depth, it
is one failure that counts them and gives their places in document order. Otherwise it is the list
of warnings the program deserves, and a run that succeeds returns that list. -/
theorem check_of_program (program : Program) (mode : Mode) :
    (1 < program.mainPaths.length →
      ∃ failure, (Survey.of Survey.standard program).check mode = .error failure ∧
        failure.diagnostic.kind = .duplicateMain ∧
        failure.diagnostic.message =
          s!"found {program.mainPaths.length} main functions: " ++
            ", ".intercalate (program.mainPaths.map NodePath.text)) ∧
    (program.mainPaths.length ≤ 1 →
      (Survey.of Survey.standard program).check mode = .ok (program.warnings mode)) ∧
    ∀ (loader : Loader) (width : Nat) (run : Generation) (source : Source),
      compile? loader ⟨mode, width⟩ program = some run → run.result = .ok source →
        source.warnings = program.warnings mode := by
  refine ⟨fun hmains => ?_, fun hmains => ?_, ?_⟩
  · refine ⟨.duplicateMain program.mainPaths, ?_, rfl, rfl⟩
    rw [Survey.check_standard, if_pos hmains]
  · rw [Survey.check_standard, if_neg (by omega)]
  · intro loader width run source hrun hok
    rw [compile?_eq_some hrun] at hok
    exact (compile_eq_ok hok).2.1

/-- Weights that another class declares make up for a network's, and a main function inside another
is one too many. -/
theorem check_of_program_across_classes :
    let program : Program :=
      ⟨[.classDecl "A"
        [.const "N" "int" "3", .network "net" ⟨"net.eg"⟩,
         .staticFunction "f" [.loadTraining "data" ⟨"xor.egb"⟩]],
        .classDecl "B" [.array "WEIGHTS" []]]⟩
    let nested : Program := ⟨[.classDecl "A" [.mainFunction [.mainFunction []]]]⟩
    (Survey.of Survey.standard program).check .embed =
        .ok [⟨⟨["A", "N"]⟩, .quotedConst "int"⟩, ⟨⟨["A", "f", "data"]⟩, .missingTraining⟩] ∧
      ∃ failure, (Survey.of Survey.standard nested).check .link = .error failure ∧
        failure.diagnostic.message = "found 2 main functions: A > main, A > main > main" := by
  intro program nested
  refine ⟨(check_of_program program .embed).2.1 (by decide), ?_⟩
  obtain ⟨failure, hcheck, -, hmessage⟩ := (check_of_program nested .link).1 (by decide)
  exact ⟨failure, hcheck, hmessage.trans (by decide)⟩

end NetScribe
