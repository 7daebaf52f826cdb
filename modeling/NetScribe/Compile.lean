import NetScribe.Java.Emit

/-!
# From a program to its source

A program is surveyed and checked first and written only if the check lets it pass. A source is kept
as its imports and its body lines; its text is the import lines and the body, joined by line feeds
and ended by one.
-/

namespace NetScribe

/-- How a program is to be written. -/
structure Options where
  mode : Mode := .link
  /-- Blanks per depth. -/
  width : Nat := 4
  deriving DecidableEq, Inhabited

/-- Lines as text: joined by line feeds, and one more behind the last unless there is no text. -/
def joinLines (lines : List String) : String :=
  let text := "\n".intercalate lines
  if text.isEmpty then text else text ++ "\n"

/-- The depth of the deepest line that a run writes until it ends. It is the same on pages of any
width, so one without blanks will do. -/
def Program.reach (loader : Loader) (mode : Mode) (program : Program) : Nat :=
  match Java.Emit.nodes loader mode program.nodes { page := .empty 0 } with
  | .ok () e => e.reach
  | .error _ e => e.reach

/-- There is a page for a run, on which each of its lines can be indented. -/
def Options.writable (options : Options) (loader : Loader) (program : Program) : Bool :=
  Java.Page.fits options.width (program.reach loader options.mode)

/-- A written program. -/
structure Source where
  imports : List String
  /-- The lines below the imports. -/
  body : List String
  warnings : List Warning := []
  deriving DecidableEq, Inhabited

/-- The text of a source: its imports, an empty line if there are any, and its body. -/
def Source.code (source : Source) : String :=
  joinLines (Java.importLines source.imports ++ source.body)

/-- What came of a run, and what it asked the loader for. -/
structure Generation where
  result : Except Failure Source
  accesses : List Java.Access := []

/-- Write a program without checking it. -/
def generate (loader : Loader) (options : Options) (program : Program) : Generation :=
  match Java.Emit.nodes loader options.mode program.nodes { page := .empty options.width } with
  | .ok () e =>
    { result := .ok { imports := e.imports.entries, body := e.page.lines }
      accesses := e.accesses }
  | .error failure e => { result := .error failure, accesses := e.accesses }

/-- Check a program with the given visitors, then write it. -/
def compileWith (visitors : List (Visitor Survey)) (loader : Loader) (options : Options)
    (program : Program) : Generation :=
  match (Survey.of visitors program).check options.mode with
  | .error failure => { result := .error failure }
  | .ok warnings =>
    let written := generate loader options program
    { written with result := written.result.map fun source => { source with warnings } }

/-- Write a program without checking it, if there is a page for it. -/
def generate? (loader : Loader) (options : Options) (program : Program) : Option Generation :=
  if options.writable loader program then some (generate loader options program) else none

/-- Check a program with the given visitors, then write it, if there is a page for it. A program
that fails the check needs none. -/
def compileWith? (visitors : List (Visitor Survey)) (loader : Loader) (options : Options)
    (program : Program) : Option Generation :=
  match (Survey.of visitors program).check options.mode with
  | .error failure => some { result := .error failure }
  | .ok _ =>
    if options.writable loader program then some (compileWith visitors loader options program)
    else none

/-- Check a program the ordinary way, then write it, if there is a page for it. -/
def compile? (loader : Loader) (options : Options) (program : Program) : Option Generation :=
  compileWith? Survey.standard loader options program

/-- Check a program the ordinary way, then write it. -/
def compile (loader : Loader) (options : Options) (program : Program) : Generation :=
  compileWith Survey.standard loader options program

end NetScribe
