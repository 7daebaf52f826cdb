import NetScribe.Compile
import NetScribe.Json.Numbers
import NetScribe.Run.Help

/-!
# The command line

One command does something: `generate`, with the path of a document or a directory or with a switch
to read standard input. Switches may come in any order, none of them twice; behind `--` nothing is a
switch any more. Arguments are taken from left to right, so whoever asks for help gets it unless an
argument in front is not understood, and nothing behind matters.
-/

namespace NetScribe.Run

/-- How documents are compiled in a run. -/
structure Settings where
  options : Options := {}
  /-- Warnings are failures. -/
  strict : Bool := false
  deriving DecidableEq, Inhabited

/-- Where documents come from. -/
inductive Input where
  /-- Standard input; the result is printed, as JSON if so wanted. -/
  | standard (json : Bool)
  /-- A document or a directory of them. -/
  | path (path : Path)
  deriving DecidableEq, Inhabited

/-- What to do. -/
structure Command where
  input : Input
  settings : Settings
  deriving DecidableEq, Inhabited

namespace Command

/-- Arguments understood so far. -/
structure Draft where
  file : Option String := none
  stdin : Bool := false
  json : Bool := false
  embed : Bool := false
  strict : Bool := false
  indent : Option Nat := none

/-- A natural number below `2 ^ 64`: digits, perhaps behind a plus sign. -/
def natural? (text : String) : Option Nat :=
  let digits := match text.toList with
    | '+' :: rest => rest
    | letters => letters
  if digits.isEmpty || !digits.all Json.isDigit then none
  else
    let value := Json.digitsValue digits
    if value < Nat.pow 2 64 then some value else none

namespace Draft

/-- Take up a file. -/
def setFile (draft : Draft) (file : String) : Option Draft :=
  if draft.file.isSome || file.isEmpty then none else some { draft with file }

/-- Take up the blanks per depth. -/
def setIndent (draft : Draft) (text : String) : Option Draft := do
  if draft.indent.isSome then none
  else some { draft with indent := ← natural? text }

/-- Take up a switch without a value. -/
def setSwitch (draft : Draft) : String → Option Draft
  | "--stdin" => if draft.stdin then none else some { draft with stdin := true }
  | "--json" => if draft.json then none else some { draft with json := true }
  | "--embed" => if draft.embed then none else some { draft with embed := true }
  | "--strict" => if draft.strict then none else some { draft with strict := true }
  | _ => none

/-- The command, if it is complete. -/
def finish (draft : Draft) : Option Command :=
  let settings : Settings :=
    { options :=
        { mode := if draft.embed then .embed else .link, width := draft.indent.getD 4 }
      strict := draft.strict }
  if draft.stdin then some ⟨.standard draft.json, settings⟩
  else draft.file.map fun file => ⟨.path ⟨file⟩, settings⟩

end Draft

/-- The value of a switch written with an equals sign. -/
def valueOf? (switch : String) (argument : List Char) : Option String :=
  let start := switch.toList ++ ['=']
  if start.isPrefixOf argument then some (String.ofList (argument.drop start.length)) else none

/-- An argument that asks for help. -/
def asksHelp (argument : String) : Bool :=
  argument == "--help" || ['-', 'h'].isPrefixOf argument.toList

/-- What taking up arguments leads to. -/
inductive Taken where
  /-- All of them were taken up. -/
  | all (draft : Draft)
  /-- One of them asks for help. -/
  | help

/-- Take up arguments behind the name of the command. -/
def takeAll (draft : Draft) : List String → Option Taken
  | [] => some (.all draft)
  | "--" :: files => (files.foldlM Draft.setFile draft).map .all
  | "--indent" :: rest =>
    match rest with
    | [] => none
    | value :: rest => do takeAll (← draft.setIndent value) rest
  | argument :: rest =>
    match valueOf? "--indent" argument.toList with
    | some value => do takeAll (← draft.setIndent value) rest
    | none =>
      if asksHelp argument then some .help else
      match argument.toList with
      | '-' :: _ :: _ => do takeAll (← draft.setSwitch argument) rest
      | _ => do takeAll (← draft.setFile argument) rest

end Command

/-- What the program is asked for. -/
inductive Invocation where
  | help (topic : Topic)
  | command (command : Command)
  deriving DecidableEq, Inhabited

namespace Invocation

/-- What a list of arguments asks for; none if it is not understood. -/
def parse? : List String → Option Invocation
  | [] => none
  | "generate" :: rest => do
    match ← Command.takeAll {} rest with
    | .help => some (.help .generate)
    | .all draft => draft.finish.map .command
  | "help" :: commands => (Topic.ofCommands? commands).map .help
  | argument :: _ => if Command.asksHelp argument then some (.help .overview) else none

end Invocation

end NetScribe.Run
