import NetScribe.Diagnostic
import NetScribe.Files.Fault
import NetScribe.Json.Fault

/-!
# Failures and warnings

Why a run fails, and what it only warns about. A failure is a cause; the diagnostic it is shown as
follows from it.
-/

namespace NetScribe

/-- What a warning is about. -/
inductive Concern where
  /-- A constant of another type is written as quoted text. -/
  | quotedConst (typeName : String)
  /-- An embedded network decodes weights that no array declares. -/
  | missingWeights
  /-- An embedded training set reads data that is not there. -/
  | missingTraining
  deriving DecidableEq, Inhabited, Repr

/-- A concern in words. -/
def Concern.message : Concern → String
  | quotedConst typeName =>
    "const of type `" ++ typeName ++ "` is emitted as a quoted string literal"
  | missingWeights => "embedded network decodes `WEIGHTS` but no such array is declared"
  | missingTraining =>
    "embedded training set reads `INPUT_DATA`/`IDEAL_DATA` but no training data is embedded"

/-- A concern about a node. -/
structure Warning where
  path : NodePath
  concern : Concern
  deriving DecidableEq, Inhabited, Repr

/-- Why there is no document. -/
inductive DocumentFault where
  /-- The file cannot be read. -/
  | unreadable (path : Path) (fault : Files.Fault)
  /-- The text is no document: the cause and the line it was found on. -/
  | malformed (cause : Json.Cause) (line : Nat)
  deriving DecidableEq, Inhabited, Repr

/-- The reason in words. The column, which is told behind the line, is not kept. -/
def DocumentFault.message : DocumentFault → String
  | unreadable path fault => "failed to read " ++ path.text ++ ": " ++ fault.message
  | malformed cause line => "malformed program document: " ++ cause.message ++ s!" at line {line}"

/-- Why a run fails. -/
inductive Failure where
  /-- A model cannot be loaded. -/
  | modelLoad (node : NodePath) (model : Path) (cause : LoadFault)
  /-- A dataset cannot be loaded. -/
  | datasetLoad (node : NodePath) (data : Path) (cause : LoadFault)
  /-- A model has no recipe to be rebuilt from. -/
  | noRecipe (node : NodePath) (kind : String)
  /-- There is more than one main function. -/
  | duplicateMain (nodes : List NodePath)
  /-- There is no document. -/
  | document (fault : DocumentFault)
  /-- There are warnings, and none are allowed. -/
  | strict (warnings : List Warning)
  deriving DecidableEq, Inhabited, Repr

/-- What is shown of a failure. -/
def Failure.diagnostic : Failure → Diagnostic
  | modelLoad node model cause =>
    { kind := .resourceLoad, message := "failed to load model " ++ model.text,
      cause := some cause : Diagnostic }.atNode node
  | datasetLoad node data cause =>
    { kind := .resourceLoad, message := "failed to load training data " ++ data.text,
      cause := some cause : Diagnostic }.atNode node
  | noRecipe node kind =>
    { kind := .unsupportedModel, message := "code generation not yet supported for: " ++ kind,
      help := some ("only models exposing factory metadata can be embedded\n" ++
        "generate without --embed to link the model file instead") : Diagnostic }.atNode node
  | duplicateMain nodes =>
    { kind := .duplicateMain,
      message := s!"found {nodes.length} main functions: " ++
        ", ".intercalate (nodes.map NodePath.text),
      help := some "a program may declare at most one main function" }
  | document fault => { kind := .invalidDocument, message := fault.message }
  | strict warnings =>
    { kind := .strictWarnings, message := s!"{warnings.length} warning(s) with --strict",
      help := some ("\n".intercalate (warnings.map fun warning =>
        warning.path.text ++ ": " ++ warning.concern.message)) }

end NetScribe
