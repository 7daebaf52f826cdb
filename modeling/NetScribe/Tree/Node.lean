import NetScribe.Number.Binary64
import NetScribe.Path.Basic
import NetScribe.Tree.NodePath

/-!
# Program trees

A program is a list of nodes. Three kinds of node hold others; the rest are leaves. Names are
written out as they are given, so whoever builds a tree answers for their being names.
-/

namespace NetScribe

/-- The variable a call's result is bound to. -/
structure Binding where
  typeName : String
  var : String
  deriving DecidableEq, Inhabited, Repr

/-- A node of a program tree. -/
inductive Node where
  /-- A comment of one line. -/
  | comment (text : String)
  /-- A class and what it declares. -/
  | classDecl (name : String) (children : List Node)
  /-- The entry point. -/
  | mainFunction (children : List Node)
  /-- A static function without parameters. -/
  | staticFunction (name : String) (children : List Node)
  /-- A static constant. -/
  | const (name typeName value : String)
  /-- A call of a function without parameters. -/
  | call (name : String) (result : Option Binding)
  /-- A static array of numbers. -/
  | array (name : String) (values : List Binary64)
  /-- A function that gives a model. -/
  | network (name : String) (model : Path)
  /-- The training data, written in place when resources are embedded. -/
  | embedTraining (data : Path)
  /-- A function that gives the training data. -/
  | loadTraining (name : String) (data : Path)
  deriving Inhabited

namespace Node

/-- What a node is called in a path. -/
def label : Node → String
  | comment _ => "comment"
  | classDecl name _ => name
  | mainFunction _ => "main"
  | staticFunction name _ => name
  | const name _ _ => name
  | call name _ => name
  | array name _ => name
  | network name _ => name
  | embedTraining _ => "embed_training"
  | loadTraining name _ => name

/-- The nodes a node holds. -/
def children : Node → List Node
  | classDecl _ children => children
  | mainFunction children => children
  | staticFunction _ children => children
  | _ => []

/-! ## Document order -/

mutual

/-- A node and all nodes below it, each with its place, in document order. -/
def located (above : NodePath) (node : Node) : List (NodePath × Node) :=
  match node with
  | .classDecl name children =>
    (above.push name, .classDecl name children) :: locatedAll (above.push name) children
  | .mainFunction children =>
    (above.push "main", .mainFunction children) :: locatedAll (above.push "main") children
  | .staticFunction name children =>
    (above.push name, .staticFunction name children) :: locatedAll (above.push name) children
  | leaf => [(above.push leaf.label, leaf)]

@[inherit_doc located]
def locatedAll (above : NodePath) : List Node → List (NodePath × Node)
  | [] => []
  | node :: rest => located above node ++ locatedAll above rest

end

end Node

/-- A program: its top-level nodes in order. -/
structure Program where
  nodes : List Node := []
  deriving Inhabited

namespace Program

/-- The name of the first top-level class. -/
def primaryClass? (program : Program) : Option String :=
  program.nodes.findSome? fun
    | .classDecl name _ => some name
    | _ => none

/-- All nodes of a program, each with its place, in document order. -/
def located (program : Program) : List (NodePath × Node) :=
  Node.locatedAll .top program.nodes

end Program

end NetScribe
