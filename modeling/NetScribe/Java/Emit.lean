import NetScribe.Java.Imports
import NetScribe.Java.Rules
import NetScribe.Resource.Store
import NetScribe.Survey.Check

/-!
# Writing a program

The emitter goes through a tree in document order and writes each node on the page, collecting
imports. In embed mode it asks the loader for every network's model and every embedded dataset, and
stops at the first one that cannot be used; each request is noted. It keeps the place of the node it
is at, so that a failure names it, and leaves the place as it found it whether or not it fails.
-/

namespace NetScribe.Java

/-- A request for a resource. -/
inductive Access where
  | model (path : Path)
  | dataset (path : Path)
  deriving DecidableEq, Inhabited, Repr

/-- What has been written so far, where the emitter is, and what it has asked for. -/
structure Emitter where
  page : Page
  imports : Imports := {}
  path : NodePath := .top
  accesses : List Access := []
  /-- The depth of the deepest line. -/
  reach : Nat := 0
  deriving DecidableEq, Inhabited

/-- Writing: it changes the emitter and may fail, and then what was written stays. -/
abbrev Emit := EStateM Failure Emitter

namespace Emit

/-- Write a block. -/
def block (b : Block) : Emit Unit :=
  modify fun e =>
    { e with
      page := e.page.run b.steps
      imports := e.imports.addAll b.imports
      reach := Page.reach e.page.depth e.reach b.steps }

/-- Take steps on the page. -/
def steps (list : List Page.Step) : Emit Unit :=
  block { steps := list }

/-- Note a request. -/
def note (access : Access) : Emit Unit :=
  modify fun e => { e with accesses := e.accesses ++ [access] }

/-- Do something one label further down; afterwards the emitter is back, whatever happened. -/
def under (label : String) (inner : Emit Unit) : Emit Unit := fun e =>
  match inner { e with path := e.path.push label } with
  | .ok () e => .ok () { e with path := e.path.pop }
  | .error failure e => .error failure { e with path := e.path.pop }

variable (loader : Loader)

/-- Write a network rebuilt from its recipe. -/
def embedNetwork (name : String) (model : Path) : Emit Unit := do
  let place := (← get).path.push name
  note (.model model)
  match loader.model model with
  | .error cause => throw (.modelLoad place model cause)
  | .ok found =>
    match found.recipe with
    | none => throw (.noRecipe place found.kind)
    | some recipe => block (.embeddedNetwork name recipe)

/-- Write training data in place. -/
def embedData (data : Path) : Emit Unit := do
  let place := (← get).path.push "embed_training"
  note (.dataset data)
  match loader.dataset data with
  | .error cause => throw (.datasetLoad place data cause)
  | .ok dataset => block (.trainingData dataset)

variable (mode : Mode)

/-- Write a network. -/
def network (name : String) (model : Path) : Emit Unit :=
  match mode with
  | .embed => embedNetwork loader name model
  | .link => block (.linkedNetwork name model)

/-- Write training data; only embedding has any. -/
def trainingData (data : Path) : Emit Unit :=
  match mode with
  | .embed => embedData loader data
  | .link => pure ()

/-- Write a function that gives the training data. -/
def loadTraining (name : String) (data : Path) : Emit Unit :=
  match mode with
  | .embed => block (.embeddedTraining name)
  | .link => block (.linkedTraining name data)

/-- Write a container: its opening line, its children one deeper, its closing brace. -/
def container (opening label : String) (children : Emit Unit) : Emit Unit := do
  steps [.blank, .opening opening]
  under label children
  steps [.closing "\x7d"]

mutual

/-- Write a node. -/
def node (n : Node) : Emit Unit :=
  match n with
  | .comment text => block (.comment text)
  | .classDecl name children => container (classOpening name) name (nodes children)
  | .mainFunction children => container mainOpening "main" (nodes children)
  | .staticFunction name children => container (functionOpening name) name (nodes children)
  | .const name typeName value => block (.const name typeName value)
  | .call name result => block (.call name result)
  | .array name values => block (.array name values)
  | .network name model => network loader mode name model
  | .embedTraining data => trainingData loader mode data
  | .loadTraining name data => loadTraining mode name data

/-- Write nodes in turn. -/
def nodes : List Node → Emit Unit
  | [] => pure ()
  | n :: rest => do
    node n
    nodes rest

end

end Emit

end NetScribe.Java
