import NetScribe.Document.Read
import NetScribe.Files.Operations
import NetScribe.Run.Command

/-!
# Running on files

A document's program is written beside it, under the name of its first class or, if it has none,
under its own. A directory is a list of documents, treated one after the other; one that fails stops
neither the others nor the run. Only a document with a line that cannot be indented stops the run,
and what was written for those before it stays. Everything a run says is a notice, put into words at
the end; what a notice does not hold, like the time of day, is left to a voice.
-/

namespace NetScribe.Run

open Files (MonadFiles)

/-- Something a run says. -/
inductive Notice where
  /-- A warning was logged. -/
  | logged (warning : Warning)
  /-- A document failed. -/
  | failed (file : String) (failure : Failure)
  /-- A program was written, with so many warnings. -/
  | written (output : Path) (warnings : Nat)
  /-- A program could not be written. -/
  | writeFailed (output : Path) (fault : Files.Fault)
  /-- So many programs were written. -/
  | generated (count : Nat)
  /-- A file is no document by its name. -/
  | notDocument (path : Path)
  /-- Nothing is there. -/
  | missing (path : Path)
  /-- A directory holds no documents. -/
  | noDocuments (path : Path)
  /-- Standard input cannot be read. -/
  | unreadableInput (fault : Files.Fault)
  /-- A line could not be indented. -/
  | aborted
  deriving DecidableEq, Inhabited

/-- A warning as a line of a log, at a time. -/
def logLine (time : String) (warning : Warning) : String :=
  time ++ "  WARN mlgen: " ++ warning.concern.message ++ " path=" ++ warning.path.text ++ "\n"

/-- How a notice is put into words, and what it leaves open. -/
structure Voice where
  palette : Palette := .plain
  /-- The time of day. -/
  time : String := ""
  /-- How long the run took. -/
  elapsed : String := ""
  /-- What stands behind the line on which a document is at fault: its column. -/
  column : String := ""
  /-- How a warning is logged at a time. -/
  log : String → Warning → String := logLine
  /-- What is said of a line that cannot be indented. -/
  report : String := ""

/-- What is shown of a failure, with the column of a fault. -/
def diagnosticAt (column : String) : Failure → Diagnostic
  | .document (.malformed cause line) =>
    { kind := .invalidDocument,
      message := (DocumentFault.malformed cause line).message ++ column }
  | failure => failure.diagnostic

namespace Notice

/-- A program was written. -/
def isWritten : Notice → Bool
  | written _ _ => true
  | _ => false

/-- The run stops here. -/
def isAborted : Notice → Bool
  | aborted => true
  | _ => false

/-- So many warnings, in words. -/
def warningCount : Nat → String
  | 0 => ""
  | 1 => " (1 warning)"
  | n => s!" ({n} warnings)"

/-- A notice in words. -/
def text (voice : Voice) : Notice → String
  | logged warning => voice.log voice.time warning
  | failed file failure => (diagnosticAt voice.column failure).render voice.palette file
  | written output warnings =>
    "  " ++ voice.palette.success ++ "✓" ++ voice.palette.reset ++ " " ++ output.text ++
      warningCount warnings ++ "\n"
  | writeFailed output fault =>
    "Error: failed to write " ++ output.text ++ ": " ++ fault.message ++ "\n"
  | generated count =>
    "\n" ++ voice.palette.summary ++ s!"✨ Generated {count} " ++
      (if count = 1 then "file" else "files") ++ s!" in {voice.elapsed}" ++
      voice.palette.reset ++ "\n"
  | notDocument path => "Error: " ++ path.text ++ " is not a .json program document\n"
  | missing path => "Error: " ++ path.text ++ " does not exist\n"
  | noDocuments path => "No .json program documents found in " ++ path.text ++ "\n"
  | unreadableInput fault => "Error: failed to read stdin: " ++ fault.message ++ "\n"
  | aborted => voice.report

end Notice

/-- How a run ends. -/
structure Outcome where
  /-- Zero if all went well. -/
  code : Nat
  /-- What is printed. -/
  output : String := ""
  notices : List Notice := []
  deriving DecidableEq, Inhabited

/-- All that a run says on the side, each notice in a voice of its own. -/
def Outcome.errorText (voice : Nat → Voice) (outcome : Outcome) : String :=
  String.join (outcome.notices.mapIdx fun n notice => notice.text (voice n))

/-! ## One document -/

/-- Compile a document; under strict settings warnings are a failure. -/
def Settings.compile (settings : Settings) (document : Document) : Except Failure Source :=
  match (NetScribe.compile document.resources.loader settings.options document.program).result with
  | .error failure => .error failure
  | .ok source =>
    if settings.strict && !source.warnings.isEmpty then .error (.strict source.warnings)
    else .ok source

/-- The warnings of a document that are logged: all of them, as soon as it has passed the check. -/
def Settings.log (settings : Settings) (document : Document) : List Warning :=
  match (Survey.of Survey.standard document.program).check settings.options.mode with
  | .error _ => []
  | .ok warnings => warnings

/-- A document is to be written with a line that cannot be indented. -/
def Settings.aborts (settings : Settings) (document : Document) : Bool :=
  (compile? document.resources.loader settings.options document.program).isNone

/-- The document of a file's content. -/
def documentOf (path : Path) (content : Except Files.Fault ByteArray) :
    Except DocumentFault Document :=
  match Files.decode content with
  | .error fault => .error (.unreadable path fault)
  | .ok text => Document.ofText text

/-- The code of a run that was stopped. -/
def abortedCode : Nat := 101

/-- A program ready to be written. -/
structure Target where
  output : Path
  source : Source

/-- The path a document's program is written to. -/
def outputPath (path : Path) (document : Document) : Path :=
  let name := document.program.primaryClass?.getD (path.stem?.getD "Program")
  path.withFileName (name ++ ".java")

/-- What is to be written for the document at a path with a given content. -/
def targetOf (settings : Settings) (path : Path) (content : Except Files.Fault ByteArray) :
    Except Failure Target :=
  match documentOf path content with
  | .error fault => .error (.document fault)
  | .ok document =>
    match settings.compile document with
    | .error failure => .error failure
    | .ok source => .ok ⟨outputPath path document, source⟩

/-- The document at a path with a given content stops the run. -/
def abortsAt (settings : Settings) (path : Path) (content : Except Files.Fault ByteArray) : Bool :=
  match documentOf path content with
  | .error _ => false
  | .ok document => settings.aborts document

/-- What is logged of the document at a path with a given content. -/
def logOf (settings : Settings) (path : Path) (content : Except Files.Fault ByteArray) :
    List Warning :=
  match documentOf path content with
  | .error _ => []
  | .ok document => settings.log document

/-- What is said of one document: its warnings, and then how it went. -/
structure Account where
  log : List Warning
  notice : Notice
  deriving DecidableEq, Inhabited

namespace Account

/-- An account as notices. -/
def notices (account : Account) : List Notice :=
  account.log.map .logged ++ [account.notice]

/-- The program was written. -/
def isWritten (account : Account) : Bool := account.notice.isWritten

/-- The run stops here. -/
def isAborted (account : Account) : Bool := account.notice.isAborted

end Account

section

variable {m : Type → Type} [Monad m] [MonadFiles m]

/-- Write the program of the document at a path. -/
def generateFile (settings : Settings) (path : Path) : m Account := do
  let content ← MonadFiles.read path
  let log := logOf settings path content
  if abortsAt settings path content then return ⟨log, .aborted⟩
  else
    match targetOf settings path content with
    | .error failure => return ⟨log, .failed path.text failure⟩
    | .ok target =>
      match ← MonadFiles.write target.output target.source.code.toUTF8 with
      | .error fault => return ⟨log, .writeFailed target.output fault⟩
      | .ok () => return ⟨log, .written target.output target.source.warnings.length⟩

/-! ## Directories and single files -/

/-- A path with the name of a document. -/
def isDocument (path : Path) : Bool :=
  path.extension? == some "json"

/-- Write the programs of documents, one after the other, until one stops the run. -/
def generateAll (settings : Settings) : List Path → m (List Account)
  | [] => return []
  | path :: rest => do
    let account ← generateFile settings path
    if account.isAborted then return [account]
    else return account :: (← generateAll settings rest)

/-- Write the programs of all documents below a directory. -/
def generateDirectory (settings : Settings) (directory : Path) : m Outcome := do
  let documents := (← MonadFiles.walk directory).filter isDocument
  let accounts ← generateAll settings documents
  let notices := accounts.flatMap Account.notices
  if accounts.isEmpty then return { code := 1, notices := [.noDocuments directory] }
  else if accounts.any Account.isAborted then return { code := abortedCode, notices }
  else
    let code := if accounts.all Account.isWritten then 0 else 1
    return { code, notices := notices ++ [.generated (accounts.countP Account.isWritten)] }

/-- Write the programs of what a path leads to. -/
def generatePath (settings : Settings) (path : Path) : m Outcome := do
  match ← MonadFiles.kind? path with
  | some .file =>
    if isDocument path then
      let account ← generateFile settings path
      if account.isWritten then
        return { code := 0, notices := account.notices ++ [.generated 1] }
      else
        return { code := if account.isAborted then abortedCode else 1, notices := account.notices }
    else return { code := 1, notices := [.notDocument path] }
  | some .directory => generateDirectory settings path
  | none => return { code := 1, notices := [.missing path] }

end

/-! ## Standard input -/

/-- A warning as JSON. -/
def warningJson (warning : Warning) : Json :=
  .object [("path", .string warning.path.text), ("message", .string warning.concern.message)]

/-- A source as JSON. -/
def sourceJson (source : Source) : Json :=
  .object [("code", .string source.code), ("headers", .array (source.imports.map .string)),
    ("warnings", .array (source.warnings.map warningJson))]

/-- Compile the document on standard input and print its program. -/
def generateInput (settings : Settings) (json : Bool) (input : ByteArray) : Outcome :=
  match Files.decode (.ok input) with
  | .error fault => { code := 1, notices := [.unreadableInput fault] }
  | .ok text =>
    match Document.ofText text with
    | .error fault => { code := 1, notices := [.failed "<stdin>" (.document fault)] }
    | .ok document =>
      let log := (settings.log document).map Notice.logged
      if settings.aborts document then { code := abortedCode, notices := log ++ [.aborted] }
      else
        match settings.compile document with
        | .error failure => { code := 1, notices := log ++ [.failed "<stdin>" failure] }
        | .ok source =>
          { code := 0, output := if json then (sourceJson source).text ++ "\n" else source.code
            notices := log }

/-- Carry out a command. -/
def Command.run {m : Type → Type} [Monad m] [MonadFiles m] (command : Command)
    (input : ByteArray) : m Outcome :=
  match command.input with
  | .standard json => return generateInput command.settings json input
  | .path path => generatePath command.settings path

/-- Do what the program is asked for. -/
def Invocation.run {m : Type → Type} [Monad m] [MonadFiles m] (invocation : Invocation)
    (input : ByteArray) : m Outcome :=
  match invocation with
  | .help topic => return { code := 0, output := topic.text }
  | .command c => c.run input

/-- Do what the program is asked for on a disk: how it ends, and the disk it leaves. -/
def Invocation.runOn (invocation : Invocation) (input : ByteArray) (disk : Files.Disk) :
    Outcome × Files.Disk :=
  (invocation.run input : StateM Files.Disk Outcome) disk

end NetScribe.Run
