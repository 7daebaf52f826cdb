import NetScribe.Tree.Visitor

/-!
# Surveying a program

Before a program is written, visitors note what matters for the checks that follow: where its main
functions are, which constants have a type that quoting does not suit, and what embedded resources
rely on. Every visitor adds to the same survey.
-/

namespace NetScribe

/-- What was noted about a program, each list in document order. -/
structure Survey where
  mainFunctions : List NodePath := []
  /-- Constants of a type other than `String`, with that type. -/
  quotedConsts : List (NodePath × String) := []
  arrayNames : List String := []
  networks : List NodePath := []
  embedsTraining : Bool := false
  trainingLoaders : List NodePath := []
  deriving DecidableEq, Inhabited

namespace Survey

/-- An array of this name was seen. -/
def hasArray (survey : Survey) (name : String) : Bool :=
  survey.arrayNames.contains name

/-- A visitor that notes something at each node and looks at all of them. -/
def noting (note : Node → NodePath → Survey → Survey) : Visitor Survey where
  enter node path survey := (true, note node path survey)

/-- Notes the main functions. -/
def mains : Visitor Survey := noting fun
  | .mainFunction _, path, survey =>
    { survey with mainFunctions := survey.mainFunctions ++ [path] }
  | _, _, survey => survey

/-- Notes the constants that are quoted although their type is not `String`. -/
def consts : Visitor Survey := noting fun
  | .const _ typeName _, path, survey =>
    if typeName = "String" then survey
    else { survey with quotedConsts := survey.quotedConsts ++ [(path, typeName)] }
  | _, _, survey => survey

/-- Notes arrays, networks and training data. -/
def resources : Visitor Survey := noting fun
  | .array name _, _, survey => { survey with arrayNames := survey.arrayNames ++ [name] }
  | .network _ _, path, survey => { survey with networks := survey.networks ++ [path] }
  | .embedTraining _, _, survey => { survey with embedsTraining := true }
  | .loadTraining _ _, path, survey =>
    { survey with trainingLoaders := survey.trainingLoaders ++ [path] }
  | _, _, survey => survey

/-- The visitors of an ordinary run. -/
def standard : List (Visitor Survey) := [mains, consts, resources]

/-- What visitors note about a program, one after the other. -/
def of (visitors : List (Visitor Survey)) (program : Program) : Survey :=
  visitors.foldl (fun survey visitor => visitor.visit program survey) {}

end Survey

end NetScribe
