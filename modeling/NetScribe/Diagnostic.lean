import NetScribe.Resource.Dataset
import NetScribe.Text.Lines
import NetScribe.Tree.NodePath

/-!
# Diagnostics

A diagnostic is what a person is shown when a run fails: a kind, a message, and, if there are any,
the node it happened at, the load fault behind it and a hint. It is rendered on lines of its own,
with or without colours; a palette is only the pieces of text put around the headings.
-/

namespace NetScribe

/-- The kinds of failure. -/
inductive Kind where
  | unsupportedModel
  | resourceLoad
  | duplicateMain
  | invalidDocument
  | strictWarnings
  deriving DecidableEq, Inhabited, Repr

/-- The heading of a kind of failure. -/
def Kind.text : Kind → String
  | .unsupportedModel => "Unsupported model"
  | .resourceLoad => "Resource load failed"
  | .duplicateMain => "Duplicate main function"
  | .invalidDocument => "Invalid program document"
  | .strictWarnings => "Warnings treated as errors"

/-- What is shown of a failure. -/
structure Diagnostic where
  kind : Kind
  message : String
  path : Option NodePath := none
  help : Option String := none
  cause : Option LoadFault := none
  deriving DecidableEq, Inhabited, Repr

/-- What is put around the pieces of a message that stand out. -/
structure Palette where
  error : String := ""
  place : String := ""
  help : String := ""
  success : String := ""
  summary : String := ""
  reset : String := ""

namespace Palette

/-- No colours. -/
def plain : Palette := {}

/-- Colours of a terminal. -/
def terminal : Palette where
  error := "\x1b[1;31m"
  place := "\x1b[2m"
  help := "\x1b[1;38;5;73m"
  success := "\x1b[32m"
  summary := "\x1b[1m"
  reset := "\x1b[0m"

end Palette

namespace Diagnostic

/-- The diagnostic at a node; the place above all nodes is not shown. -/
def atNode (diagnostic : Diagnostic) (path : NodePath) : Diagnostic :=
  if path.isTop then diagnostic else { diagnostic with path := some path }

/-- The lines of a hint: the first under a heading, the others below it. -/
def helpLines (palette : Palette) : List String → String
  | [] => ""
  | first :: rest =>
    " " ++ palette.help ++ "help:" ++ palette.reset ++ " " ++ first ++ "\n" ++
      String.join (rest.map fun line => "       " ++ line ++ "\n")

/-- The whole diagnostic as text, for a document shown under `file`. -/
def render (palette : Palette) (file : String) (d : Diagnostic) : String :=
  "\n" ++
  " " ++ palette.place ++ "file:" ++ palette.reset ++ " " ++ file ++ "\n" ++
  palette.error ++ "error:" ++ palette.reset ++ " " ++ d.kind.text ++ ": " ++ d.message ++ "\n" ++
  (match d.path with
    | some path => "   " ++ palette.place ++ "at:" ++ palette.reset ++ " " ++ path.text ++ "\n"
    | none => "") ++
  (match d.cause with
    | some cause => palette.place ++ "cause:" ++ palette.reset ++ " " ++ cause.message ++ "\n"
    | none => "") ++
  (match d.help with
    | some help => "\n" ++ helpLines palette (Text.lines help)
    | none => "") ++
  "\n"

end Diagnostic

end NetScribe
