import NetScribe.Compile
import NetScribe.Proofs.Places

/-!
# What the emitter does, without the emitter

The emitter writes on a page, collects imports, notes requests and keeps its place, all in one state
that a failure leaves half written. A `Script` is what it does to that state: steps, imports and
requests in order, and the failure it ends with, if it does. Scripts are put together by `andThen`,
under which a failure ends everything behind it.

`Plays x s` says that the action `x` does exactly what the script `s` of its place says, from every
state. The actions the emitter is made of play their scripts, sequences play sequences, and so a
tree plays the script of a tree (`plays_nodes`), which is defined by recursion on the tree alone.
A run succeeds or fails as its script does (`generate_of_none`, `generate_of_some`), so every law of
a run is a law of lists.
-/

namespace NetScribe.Java

namespace Page

@[simp] theorem run_nil (page : Page) : page.run [] = page := rfl

theorem run_append (page : Page) (first second : List Step) :
    page.run (first ++ second) = (page.run first).run second :=
  List.foldl_append

theorem depth_step_eq (page : Page) (s : Step) : (page.step s).depth = s.leaves page.depth := by
  cases s <;> rfl

@[simp] theorem reach_nil (depth deepest : Nat) : reach depth deepest [] = deepest := rfl

theorem reach_append (page : Page) (deepest : Nat) (first second : List Step) :
    reach page.depth deepest (first ++ second) =
      reach (page.run first).depth (reach page.depth deepest first) second := by
  induction first generalizing page deepest with
  | nil => rfl
  | cons s first ih =>
    rw [List.cons_append, reach, reach, ← depth_step_eq, ih (page.step s)]
    rfl

end Page

namespace Imports

@[simp] theorem addAll_nil (imports : Imports) : imports.addAll [] = imports := rfl

theorem addAll_append (imports : Imports) (first second : List String) :
    imports.addAll (first ++ second) = (imports.addAll first).addAll second :=
  List.foldl_append

end Imports

/-- What is done to an emitter: steps on the page, imports and requests, and the failure that ends
it. -/
structure Script where
  steps : List Page.Step := []
  imports : List String := []
  accesses : List Access := []
  failure : Option Failure := none

namespace Script

variable {s t : Script}

/-! ## Scripts in turn -/

/-- One script behind another; a failure of the first leaves nothing of the second. -/
def andThen (s t : Script) : Script :=
  match s.failure with
  | some _ => s
  | none =>
    { steps := s.steps ++ t.steps
      imports := s.imports ++ t.imports
      accesses := s.accesses ++ t.accesses
      failure := t.failure }

theorem andThen_of_some {failure : Failure} (h : s.failure = some failure) : s.andThen t = s := by
  rw [andThen, h]

theorem andThen_of_none (h : s.failure = none) :
    s.andThen t =
      { steps := s.steps ++ t.steps
        imports := s.imports ++ t.imports
        accesses := s.accesses ++ t.accesses
        failure := t.failure } := by
  rw [andThen, h]

/-- The first failure is the failure. -/
theorem failure_andThen (s t : Script) : (s.andThen t).failure = s.failure.or t.failure := by
  cases h : s.failure with
  | some failure => rw [andThen_of_some h, h, Option.some_or]
  | none => rw [andThen_of_none h, Option.none_or]

/-- A sequence succeeds when both parts do, and then all steps are taken. -/
theorem steps_andThen (h : (s.andThen t).failure = none) :
    s.failure = none ∧ t.failure = none ∧ (s.andThen t).steps = s.steps ++ t.steps := by
  obtain ⟨hs, ht⟩ := Option.or_eq_none_iff.mp ((failure_andThen s t).symm.trans h)
  exact ⟨hs, ht, by rw [andThen_of_none hs]⟩

/-! ## Playing a script -/

/-- The emitter after a script; its place is the same. -/
def advance (s : Script) (e : Emitter) : Emitter :=
  { e with
    page := e.page.run s.steps
    imports := e.imports.addAll s.imports
    accesses := e.accesses ++ s.accesses
    reach := Page.reach e.page.depth e.reach s.steps }

@[simp] theorem path_advance (s : Script) (e : Emitter) : (s.advance e).path = e.path := rfl

theorem advance_andThen (h : s.failure = none) (e : Emitter) :
    (s.andThen t).advance e = t.advance (s.advance e) := by
  rw [andThen_of_none h]
  simp only [advance, Page.run_append, Imports.addAll_append, List.append_assoc, Page.reach_append]

/-- Do what a script says. -/
def play (s : Script) : Emit Unit := fun e =>
  match s.failure with
  | none => .ok () (s.advance e)
  | some failure => .error failure (s.advance e)

theorem play_of_none (h : s.failure = none) (e : Emitter) : s.play e = .ok () (s.advance e) := by
  rw [play, h]

theorem play_of_some {failure : Failure} (h : s.failure = some failure) (e : Emitter) :
    s.play e = .error failure (s.advance e) := by
  rw [play, h]

end Script

namespace Emit

/-- An action does what the script of its place says, whatever the state. -/
def Plays (x : Emit Unit) (script : NodePath → Script) : Prop :=
  ∀ e, x e = (script e.path).play e

variable {x y : Emit Unit} {s t : NodePath → Script}

theorem plays_pure : Plays (pure ()) fun _ => {} := by
  intro e
  simp [Script.play, Script.advance, pure, EStateM.pure]

/-- **Actions in turn play their scripts in turn.** -/
theorem Plays.seq (hx : Plays x s) (hy : Plays y t) :
    Plays (do x; y) fun path => (s path).andThen (t path) := by
  intro e
  change EStateM.bind x (fun _ => y) e = _
  rw [EStateM.bind, hx e]
  cases h : (s e.path).failure with
  | none =>
    -- the second action starts at the same place, so it plays the script of that place
    rw [Script.play_of_none h]
    change y ((s e.path).advance e) = _
    rw [hy, Script.path_advance, Script.play, Script.play, Script.failure_andThen, h,
      Option.none_or, Script.advance_andThen h]
  | some failure =>
    rw [Script.play_of_some h]
    change EStateM.Result.error failure ((s e.path).advance e) =
      ((s e.path).andThen (t e.path)).play e
    rw [Script.andThen_of_some h, Script.play_of_some h]

theorem plays_block (b : Block) :
    Plays (block b) fun _ => { steps := b.steps, imports := b.imports } := by
  intro e
  change EStateM.Result.ok () _ = _
  simp [Script.play, Script.advance]

/-- **Doing something further down plays the script of further down**, and comes back whether or not
it fails. -/
theorem Plays.under (label : String) (hx : Plays x s) :
    Plays (under label x) fun path => s (path.push label) := by
  intro e
  rw [Emit.under, hx, Script.play, Script.play]
  cases h : (s (e.path.push label)).failure with
  | none => simp [Script.advance]
  | some failure => simp [Script.advance]

end Emit

/-! ## The script of a tree

A container is an opening line, its children and a closing brace; every other node has a script of
its own, with the place of the node for its failures. -/

/-- The line a container starts with; a leaf has none. -/
def opening? : Node → Option String
  | .classDecl name _ => some (classOpening name)
  | .mainFunction _ => some mainOpening
  | .staticFunction name _ => some (functionOpening name)
  | _ => none

/-- What an embedded network is written as, or why it is not. -/
def networkBlock (loader : Loader) (place : NodePath) (name : String) (model : Path) :
    Except Failure Block :=
  match loader.model model with
  | .error cause => .error (.modelLoad place model cause)
  | .ok found =>
    match found.recipe with
    | none => .error (.noRecipe place found.kind)
    | some recipe => .ok (.embeddedNetwork name recipe)

/-- What embedded training data is written as, or why it is not. -/
def dataBlock (loader : Loader) (place : NodePath) (data : Path) : Except Failure Block :=
  match loader.dataset data with
  | .error cause => .error (.datasetLoad place data cause)
  | .ok dataset => .ok (.trainingData dataset)

namespace Script

/-- Write a block. -/
def write (b : Block) : Script := { steps := b.steps, imports := b.imports }

/-- Make a request; what comes of it is written or ends the script. -/
def request (access : Access) : Except Failure Block → Script
  | .error failure => { accesses := [access], failure := some failure }
  | .ok b => { write b with accesses := [access] }

/-- A container around the script of its children. -/
def container (opening : String) (children : Script) : Script :=
  andThen { steps := [.blank, .opening opening] }
    (children.andThen { steps := [.closing "\x7d"] })

variable (loader : Loader) (mode : Mode)

/-- The script of a leaf at its place. -/
def leaf (place : NodePath) : Node → Script
  | .comment text => write (.comment text)
  | .const name typeName value => write (.const name typeName value)
  | .call name result => write (.call name result)
  | .array name values => write (.array name values)
  | .network name model =>
    match mode with
    | .embed => request (.model model) (networkBlock loader place name model)
    | .link => write (.linkedNetwork name model)
  | .embedTraining data =>
    match mode with
    | .embed => request (.dataset data) (dataBlock loader place data)
    | .link => {}
  | .loadTraining name data =>
    match mode with
    | .embed => write (.embeddedTraining name)
    | .link => write (.linkedTraining name data)
  | _ => {}

mutual

/-- The script of a node below a place. -/
def ofNode (above : NodePath) (node : Node) : Script :=
  match node with
  | .classDecl name children =>
    container (classOpening name) (ofNodes (above.push name) children)
  | .mainFunction children => container mainOpening (ofNodes (above.push "main") children)
  | .staticFunction name children =>
    container (functionOpening name) (ofNodes (above.push name) children)
  | node => leaf loader mode (above.push node.label) node

/-- The script of nodes in turn. -/
def ofNodes (above : NodePath) : List Node → Script
  | [] => {}
  | node :: rest => (ofNode above node).andThen (ofNodes above rest)

end

/-- The script of a program. -/
def ofProgram (program : Program) : Script := ofNodes loader mode .top program.nodes

variable {loader : Loader} {mode : Mode} {above : NodePath} {node : Node} {opening : String}

theorem ofNode_container (h : opening? node = some opening) :
    ofNode loader mode above node =
      container opening (ofNodes loader mode (above.push node.label) node.children) := by
  cases node <;> cases h <;> rfl

theorem ofNode_leaf (h : opening? node = none) :
    ofNode loader mode above node = leaf loader mode (above.push node.label) node := by
  cases node <;> cases h <;> rfl

/-- A container fails only if its children do. -/
@[simp] theorem failure_container (opening : String) (children : Script) :
    (container opening children).failure = children.failure := by
  rw [container, failure_andThen, failure_andThen, Option.none_or, Option.or_none]

end Script

/-- A leaf has nothing below it. -/
theorem children_of_leaf {node : Node} (h : opening? node = none) : node.children = [] := by
  cases node <;> cases h <;> rfl

namespace Emit

variable (loader : Loader) (mode : Mode)

theorem node_container {node : Node} {opening : String} (h : opening? node = some opening) :
    Emit.node loader mode node =
      container opening node.label (nodes loader mode node.children) := by
  cases node <;> cases h <;> rfl

/-- An embedded network asks for its model first, whatever comes of it. -/
theorem plays_embedNetwork (name : String) (model : Path) :
    Plays (embedNetwork loader name model) fun path =>
      .request (.model model) (networkBlock loader (path.push name) name model) := by
  intro e
  unfold embedNetwork networkBlock
  cases hload : loader.model model with
  | error cause => rfl
  | ok found =>
    obtain ⟨kind, recipe⟩ := found
    cases recipe with
    | none => rfl
    | some recipe => rfl

/-- So does embedded training data. -/
theorem plays_embedData (data : Path) :
    Plays (embedData loader data) fun path =>
      .request (.dataset data) (dataBlock loader (path.push "embed_training") data) := by
  intro e
  unfold embedData dataBlock
  cases hload : loader.dataset data with
  | error cause => rfl
  | ok dataset => rfl

theorem plays_leaf {node : Node} (h : opening? node = none) :
    Plays (Emit.node loader mode node) fun path =>
      .leaf loader mode (path.push node.label) node := by
  cases node with
  | comment text => exact plays_block _
  | classDecl name children => cases h
  | mainFunction children => cases h
  | staticFunction name children => cases h
  | const name typeName value => exact plays_block _
  | call name result => exact plays_block _
  | array name values => exact plays_block _
  | network name model =>
    cases mode with
    | link => exact plays_block _
    | embed => exact plays_embedNetwork loader name model
  | embedTraining data =>
    cases mode with
    | link => exact plays_pure
    | embed => exact plays_embedData loader data
  | loadTraining name data =>
    cases mode with
    | link => exact plays_block _
    | embed => exact plays_block _

/-- A node plays its script if the nodes below it do. -/
theorem plays_node {n : Node}
    (below : Plays (nodes loader mode n.children)
      fun path => .ofNodes loader mode path n.children) :
    Plays (Emit.node loader mode n) fun path => .ofNode loader mode path n := by
  cases h : opening? n with
  | none =>
    simp only [Script.ofNode_leaf h]
    exact plays_leaf loader mode h
  | some opening =>
    simp only [Script.ofNode_container h, node_container loader mode h]
    exact (plays_block _).seq ((below.under n.label).seq (plays_block _))

/-- **The emitter plays the script of its tree.** -/
theorem plays_nodes (list : List Node) :
    Plays (nodes loader mode list) fun path => .ofNodes loader mode path list := by
  induction list using Node.forestInduction with
  | nil => exact plays_pure
  | cons n rest below after => exact (plays_node loader mode below).seq after

end Emit

end NetScribe.Java

namespace NetScribe

open Java

variable {loader : Loader} {options : Options} {program : Program}

/-- **A run whose script does not fail** writes what the script writes on an empty page. -/
theorem generate_of_none (h : (Script.ofProgram loader options.mode program).failure = none) :
    generate loader options program =
      let script := Script.ofProgram loader options.mode program
      { result := .ok
          { imports := (Imports.addAll {} script.imports).entries
            body := ((Page.empty options.width).run script.steps).lines }
        accesses := script.accesses } := by
  have hplay := Emit.plays_nodes loader options.mode program.nodes { page := .empty options.width }
  rw [generate, hplay.trans (Script.play_of_none h _)]
  rfl

/-- **A run whose script fails** fails the same way. -/
theorem generate_of_some {failure : Failure}
    (h : (Script.ofProgram loader options.mode program).failure = some failure) :
    generate loader options program =
      { result := .error failure
        accesses := (Script.ofProgram loader options.mode program).accesses } := by
  have hplay := Emit.plays_nodes loader options.mode program.nodes { page := .empty options.width }
  rw [generate, hplay.trans (Script.play_of_some h _)]
  rfl

/-- A run reaches as deep as its script does. -/
theorem reach_eq (loader : Loader) (mode : Mode) (program : Program) :
    program.reach loader mode = Page.reach 0 0 (Script.ofProgram loader mode program).steps := by
  have hplay := Emit.plays_nodes loader mode program.nodes { page := .empty 0 }
  unfold Program.reach
  cases h : (Script.ofProgram loader mode program).failure with
  | none =>
    rw [hplay.trans (Script.play_of_none h _)]
    rfl
  | some failure =>
    rw [hplay.trans (Script.play_of_some h _)]
    rfl

/-- What a run asks for is what its script asks for. -/
theorem accesses_generate :
    (generate loader options program).accesses =
      (Script.ofProgram loader options.mode program).accesses := by
  cases h : (Script.ofProgram loader options.mode program).failure with
  | none => rw [generate_of_none h]
  | some failure => rw [generate_of_some h]

end NetScribe
