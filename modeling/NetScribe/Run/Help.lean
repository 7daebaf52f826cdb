/-!
# Help

A page of help says what a command does and how it is called, and lists what can be given to it,
each list in two columns.
-/

namespace NetScribe.Run

/-- What there is help on. -/
inductive Topic where
  | overview
  | generate
  | help
  deriving DecidableEq, Inhabited, Repr

namespace Topic

/-- A page of help. -/
structure Page where
  about : String
  usage : String
  /-- Titled lists of terms and what they mean. -/
  sections : List (String × List (String × String))

/-- The lines of a list: terms, filled up to the longest of them, and their meanings. -/
def columns (entries : List (String × String)) : String :=
  let width := entries.foldl (fun width entry => max width entry.1.length) 0
  String.join (entries.map fun (term, meaning) =>
    "  " ++ term ++ String.ofList (List.replicate (width - term.length) ' ') ++ "  " ++
      meaning ++ "\n")

/-- A page as text. -/
def Page.text (page : Page) : String :=
  page.about ++ "\n\nUsage: " ++ page.usage ++ "\n" ++
    String.join (page.sections.map fun (title, entries) =>
      "\n" ++ title ++ ":\n" ++ columns entries)

/-- What the help command does. -/
def helpAbout : String := "Print this message or the help of the given subcommand(s)"

/-- What the generate command does. -/
def generateAbout : String := "Generate Java from program documents (.json)"

/-- The page on a topic. -/
def page : Topic → Page
  | overview =>
    { about := "mlgen - generate Java programs from machine-learning program trees"
      usage := "mlgen <COMMAND>"
      sections :=
        [("Commands", [("generate", generateAbout), ("help", helpAbout)]),
         ("Options", [("-h, --help", "Print help")])] }
  | generate =>
    { about := generateAbout
      usage := "mlgen generate [OPTIONS] [FILE]"
      sections :=
        [("Arguments", [("[FILE]", "Path to a program document or a directory of them")]),
         ("Options",
          [("    --stdin", "Read one program document from stdin and print the code"),
           ("    --json", "Output as JSON with headers and warnings"),
           ("    --embed", "Embed model weights and training data instead of linking their files"),
           ("    --strict", "Treat warnings as errors"),
           ("    --indent <INDENT>", "Spaces per indentation level [default: 4]"),
           ("-h, --help", "Print help")])] }
  | help =>
    { about := helpAbout
      usage := "mlgen help [COMMAND]..."
      sections := [("Arguments", [("[COMMAND]...", "Print help for the subcommand(s)")])] }

/-- The help on a topic. -/
def text (topic : Topic) : String := topic.page.text

/-- The topic that the names of commands lead to. -/
def ofCommands? : List String → Option Topic
  | [] => some overview
  | ["generate"] => some generate
  | ["help"] => some help
  | _ => none

end Topic

end NetScribe.Run
