import NetScribe.Run.Generate

/-!
# Refreshing expected outputs

Beside each fixture document stands what compiling it is expected to give: either a program or a
rendered failure, never both. Refreshing writes the one that holds now and removes the other.
Fixtures in a directory named `embed` are compiled in embed mode.
-/

namespace NetScribe.Run.Fixtures

open Files (MonadFiles)

/-- Something a refresh says. -/
inductive Notice where
  /-- An expected output was written. -/
  | wrote (path : Path)
  /-- A fixture is no document. -/
  | unreadable (path : Path) (fault : DocumentFault)
  /-- An expected output could not be written. -/
  | writeFailed (path : Path) (fault : Files.Fault)
  deriving DecidableEq, Inhabited

namespace Notice

/-- What is printed of a notice. -/
def output : Notice → String
  | wrote path => "  wrote " ++ path.text ++ "\n"
  | _ => ""

/-- What is said of a notice on the side. -/
def text : Notice → String
  | wrote _ => ""
  | unreadable path fault =>
    "Failed to read " ++ Text.quote path.text ++ ": " ++ fault.message ++ "\n"
  | writeFailed path fault =>
    "Failed to write " ++ Text.quote path.text ++ ": " ++ fault.message ++ "\n"

end Notice

/-- What a refresh did. -/
structure Report where
  updated : Nat
  skipped : Nat
  notices : List Notice
  deriving DecidableEq, Inhabited

namespace Report

/-- What a refresh prints. -/
def output (report : Report) : String :=
  String.join (report.notices.map Notice.output) ++
    s!"Updated {report.updated} files, skipped {report.skipped}\n"

/-- What a refresh says on the side. -/
def text (report : Report) : String :=
  String.join (report.notices.map Notice.text)

end Report

/-- The path of the expected program of a fixture. -/
def expectedProgram (path : Path) : Path := path.withExtension "expected.java"

/-- The path of the expected failure of a fixture. -/
def expectedFailure (path : Path) : Path := path.withExtension "expected.err"

/-- The mode of a fixture. -/
def modeOf (path : Path) : Mode :=
  if path.parent.fileName? == some "embed" then .embed else .link

/-- What a fixture is expected to give: a path to write, its content, and a path to remove. -/
structure Expectation where
  write : Path
  content : String
  remove : Path

/-- The expectation of a fixture's document. -/
def expectationOf (path : Path) (document : Document) : Expectation :=
  match (compile document.resources.loader { mode := modeOf path } document.program).result with
  | .ok source => ⟨expectedProgram path, source.code, expectedFailure path⟩
  | .error failure =>
    ⟨expectedFailure path, failure.diagnostic.render .plain (path.fileName?.getD "unknown"),
      expectedProgram path⟩

/-- One text holds another. -/
def holds (part : List Char) : List Char → Bool
  | [] => part.isEmpty
  | c :: rest => part.isPrefixOf (c :: rest) || holds part rest

/-- A filter picks a fixture whose path holds it. -/
def picks (filter : Option String) (path : Path) : Bool :=
  match filter with
  | none => true
  | some part => holds part.toList path.text.toList

section

variable {m : Type → Type} [Monad m] [MonadFiles m]

/-- Refresh the expected output of one fixture. -/
def refreshFile (path : Path) : m Notice := do
  match documentOf path (← MonadFiles.read path) with
  | .error fault => return .unreadable path fault
  | .ok document =>
    let expected := expectationOf path document
    let written ← MonadFiles.write expected.write expected.content.toUTF8
    if (← MonadFiles.kind? expected.remove).isSome then
      MonadFiles.remove expected.remove
    match written with
    | .ok () => return .wrote expected.write
    | .error fault => return .writeFailed expected.write fault

/-- Refresh the expected outputs of all fixtures that a filter picks, below a directory. -/
def refresh (top : Path) (filter : Option String) : m Report := do
  let documents := (← MonadFiles.walk top).filter isDocument
  let picked := documents.filter (picks filter)
  let notices ← picked.mapM refreshFile
  return ⟨picked.length, documents.length - picked.length, notices⟩

end

/-- Refresh the expected outputs of fixtures on a disk: what is said, and the disk that is left. -/
def refreshOn (top : Path) (filter : Option String) (disk : Files.Disk) : Report × Files.Disk :=
  (refresh top filter : StateM Files.Disk Report) disk

end NetScribe.Run.Fixtures
