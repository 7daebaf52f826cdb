import NetScribe.Run.Elapsed
import NetScribe.Run.Fixtures

/-!
# The program

The outermost layer: the files of the machine, standard input and output, and the clock. What a run
does is decided by `Run.Invocation.run`; here it is only carried out and shown.
-/

namespace NetScribe

namespace Files

/-- The fault behind an error of the operating system, by its number. -/
def Fault.ofNumber (number : UInt32) (details : String) : Fault :=
  match number.toNat with
  | 2 => .notFound
  | 20 => .notDirectory
  | 21 => .isDirectory
  | 36 => .nameTooLong
  | n => .other s!"{details} (os error {n})"

/-- The fault behind a failed operation. -/
def Fault.ofError : IO.Error → Fault
  | .alreadyExists _ n s | .invalidArgument _ n s | .permissionDenied _ n s
  | .resourceExhausted _ n s | .inappropriateType _ n s | .noSuchThing _ n s
  | .noFileOrDirectory _ n s | .interrupted _ n s
  | .otherError n s | .resourceBusy n s | .resourceVanished n s | .unsupportedOperation n s
  | .hardwareFault n s | .unsatisfiedConstraints n s | .illegalOperation n s
  | .protocolError n s | .timeExpired n s => ofNumber n s
  | .unexpectedEof => .other "unexpected end of file"
  | .userError s => .other s

/-- Carry out an operation on a path that the operating system takes. -/
def onMachine {α : Type} (path : Path) (operation : IO α) : IO (Except Fault α) := do
  match Disk.refused? path with
  | some fault => return .error fault
  | none =>
    match ← operation.toBaseIO with
    | .ok result => return .ok result
    | .error error => return .error (.ofError error)

/-- What a path leads to on the machine. -/
def machineKind? (path : Path) : IO (Option EntryKind) := do
  let found ← onMachine path do
    let place ← IO.FS.realPath path.text
    return (← place.metadata).type
  match found with
  | .ok .dir => return some .directory
  | .ok _ => return some .file
  | .error _ => return none

/-- The paths below a directory of the machine, itself included. Links are not followed, and what
cannot be listed counts as empty. -/
partial def machineWalk (path : Path) : IO (List Path) := do
  let listed ← onMachine path do
    let place ← IO.FS.realPath path.text
    let entries ← place.readDir
    entries.toList.mapM fun entry => do
      return (entry.fileName, (← entry.path.symlinkMetadata).type)
  match listed with
  | .error _ => return [path]
  | .ok entries =>
    let sorted := entries.mergeSort fun a b => decide (a.1 ≤ b.1)
    let below ← sorted.mapM fun (name, type) =>
      match type with
      | .dir => machineWalk (path.join name)
      | _ => pure [path.join name]
    return path :: below.flatten

/-- File operations on the machine. -/
instance : MonadFiles IO where
  kind? := machineKind?
  read path := onMachine path (IO.FS.readBinFile path.text)
  write path content := onMachine path (IO.FS.writeBinFile path.text content)
  remove path := do discard (onMachine path (IO.FS.removeFile path.text))
  walk := machineWalk

end Files

namespace Run

/-- What is read from standard input: nothing, unless the document comes from there. -/
def Invocation.readInput (invocation : Invocation) : IO ByteArray := do
  match invocation with
  | .command { input := .standard _, .. } => (← IO.getStdin).readBinToEnd
  | _ => return .empty

/-- Do what the program is asked for on the machine and show how it ended. -/
def Invocation.perform (invocation : Invocation) : IO UInt32 := do
  let start ← IO.monoNanosNow
  let outcome : Outcome ← invocation.run (← invocation.readInput)
  let elapsed := elapsedText ((← IO.monoNanosNow) - start)
  let palette := if ← (← IO.getStderr).isTty then Palette.terminal else .plain
  IO.print outcome.output
  (← IO.getStdout).flush
  IO.eprint (outcome.errorText fun _ => { palette, elapsed })
  return outcome.code.toUInt32

/-- Refresh the expected outputs of the fixtures below `tests/fixtures`, whose path is written from
the root: all of them, or those that the first argument picks. -/
def Fixtures.perform (args : List String) : IO UInt32 := do
  let here ← IO.currentDir
  let report : Report ← refresh ⟨here.toString ++ "/tests/fixtures"⟩ args.head?
  IO.print report.output
  IO.eprint report.text
  return 0

end Run

end NetScribe

/-- Understand the arguments and do what they ask for; what is not understood is answered with the
overview. -/
def main (args : List String) : IO UInt32 := do
  match NetScribe.Run.Invocation.parse? args with
  | some invocation => invocation.perform
  | none =>
    IO.eprint NetScribe.Run.Topic.overview.text
    return 2
