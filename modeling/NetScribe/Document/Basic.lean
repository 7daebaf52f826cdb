import NetScribe.Json.Value
import NetScribe.Resource.Store
import NetScribe.Tree.Node

/-!
# Program documents

A document is a program and the resources it refers to. It is written as a JSON object; a node is an
object whose member `type` comes first and tells what it is. Members that are absent from the tree
are left out.
-/

namespace NetScribe

/-- A program and its resources. -/
structure Document where
  program : Program := {}
  resources : Store := {}

instance : Inhabited Document := ⟨{}⟩

/-! ## Tags -/

/-- What a node is, as documents spell it. -/
inductive Tag where
  | comment
  | classDecl
  | mainFunction
  | staticFunction
  | const
  | call
  | array
  | network
  | embedTraining
  | loadTraining
  deriving DecidableEq, Inhabited, Repr

namespace Tag

/-- All tags, in the order that documents count them. -/
def all : List Tag :=
  [comment, classDecl, mainFunction, staticFunction, const, call, array, network, embedTraining,
    loadTraining]

/-- The spelling of a tag. -/
def text : Tag → String
  | comment => "comment"
  | classDecl => "class"
  | mainFunction => "main_function"
  | staticFunction => "static_function"
  | const => "const"
  | call => "function_call"
  | array => "init_array"
  | network => "create_network"
  | embedTraining => "embed_training"
  | loadTraining => "load_training"

/-- The tag of a spelling. -/
def ofText? (spelling : String) : Option Tag :=
  all.find? fun tag => tag.text == spelling

end Tag

/-- The tag of a node. -/
def Node.tag : Node → Tag
  | comment _ => .comment
  | classDecl _ _ => .classDecl
  | mainFunction _ => .mainFunction
  | staticFunction _ _ => .staticFunction
  | const _ _ _ => .const
  | call _ _ => .call
  | array _ _ => .array
  | network _ _ => .network
  | embedTraining _ => .embedTraining
  | loadTraining _ _ => .loadTraining

/-! ## As JSON -/

/-- A variable binding as JSON. -/
def Binding.toJson (binding : Binding) : Json :=
  .object [("type_name", .string binding.typeName), ("var", .string binding.var)]

/-- Numbers as JSON. -/
def numbersToJson (values : List Binary64) : Json :=
  .array (values.map Json.float)

namespace Node

mutual

/-- A node as JSON. -/
def toJson : Node → Json
  | comment text => .object [("type", .string "comment"), ("text", .string text)]
  | classDecl name children =>
    .object [("type", .string "class"), ("name", .string name),
      ("children", .array (toJsonAll children))]
  | mainFunction children =>
    .object [("type", .string "main_function"), ("children", .array (toJsonAll children))]
  | staticFunction name children =>
    .object [("type", .string "static_function"), ("name", .string name),
      ("children", .array (toJsonAll children))]
  | const name typeName value =>
    .object [("type", .string "const"), ("name", .string name), ("type_name", .string typeName),
      ("value", .string value)]
  | call name none => .object [("type", .string "function_call"), ("name", .string name)]
  | call name (some binding) =>
    .object [("type", .string "function_call"), ("name", .string name),
      ("result", binding.toJson)]
  | array name values =>
    .object [("type", .string "init_array"), ("name", .string name),
      ("values", numbersToJson values)]
  | network name model =>
    .object [("type", .string "create_network"), ("name", .string name),
      ("model", .string model.text)]
  | embedTraining data => .object [("type", .string "embed_training"), ("data", .string data.text)]
  | loadTraining name data =>
    .object [("type", .string "load_training"), ("name", .string name),
      ("data", .string data.text)]

/-- Nodes as JSON. -/
def toJsonAll : List Node → List Json
  | [] => []
  | node :: rest => toJson node :: toJsonAll rest

end

end Node

/-- A program as JSON. -/
def Program.toJson (program : Program) : Json :=
  .array (Node.toJsonAll program.nodes)

/-- A recipe as JSON. -/
def Recipe.toJson (recipe : Recipe) : Json :=
  .object [("type", .string recipe.method), ("architecture", .string recipe.architecture)]

/-- A model as JSON. -/
def Model.toJson (model : Model) : Json :=
  match model.recipe with
  | none => .object [("kind", .string model.kind)]
  | some recipe => .object [("kind", .string model.kind), ("factory", recipe.toJson)]

/-- A training example as JSON. -/
def Pair.toJson (pair : Pair) : Json :=
  .object [("input", numbersToJson pair.input), ("ideal", numbersToJson pair.ideal)]

/-- A dataset as JSON. -/
def Dataset.toJson (dataset : Dataset) : Json :=
  .array (dataset.pairs.map Pair.toJson)

/-- A table as JSON, one member per reference. -/
def Table.toJson {α : Type} (value : α → Json) (table : Table α) : Json :=
  .object (table.entries.map fun (path, a) => (path.text, value a))

/-- A store as JSON. -/
def Store.toJson (store : Store) : Json :=
  .object [("models", store.models.toJson Model.toJson),
    ("datasets", store.datasets.toJson Dataset.toJson)]

/-- A document as JSON. -/
def Document.toJson (document : Document) : Json :=
  .object [("program", document.program.toJson), ("resources", document.resources.toJson)]

end NetScribe
