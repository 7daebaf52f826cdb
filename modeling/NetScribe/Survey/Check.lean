import NetScribe.Failure
import NetScribe.Survey.Basic

/-!
# Checking a survey

More than one main function is a failure; everything else is a warning. Constants come first, then
networks that would decode weights nobody declared, then training data nobody embedded.
-/

namespace NetScribe

/-- How resources reach the written program. -/
inductive Mode where
  /-- Named by their files. -/
  | link
  /-- Written in as literals. -/
  | embed
  deriving DecidableEq, Inhabited, Repr

namespace Survey

/-- The warnings about embedded resources. -/
def embedWarnings (survey : Survey) : List Warning :=
  (if survey.hasArray "WEIGHTS" then []
    else survey.networks.map fun path => ⟨path, .missingWeights⟩) ++
  (if survey.embedsTraining then []
    else survey.trainingLoaders.map fun path => ⟨path, .missingTraining⟩)

/-- All warnings of a run. -/
def warnings (survey : Survey) (mode : Mode) : List Warning :=
  survey.quotedConsts.map (fun (path, typeName) => ⟨path, .quotedConst typeName⟩) ++
  match mode with
  | .link => []
  | .embed => survey.embedWarnings

/-- The warnings of a run, or the failure if there is more than one main function. -/
def check (survey : Survey) (mode : Mode) : Except Failure (List Warning) :=
  if 1 < survey.mainFunctions.length then .error (.duplicateMain survey.mainFunctions)
  else .ok (survey.warnings mode)

end Survey

end NetScribe
