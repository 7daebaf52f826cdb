import NetScribe.Document.Basic
import NetScribe.Document.Form

/-!
# Nodes from JSON values

A node's value is checked when it is there as a whole: its tag first, then its fields in the order
written, then whether any is missing. Every value below a node is offered in two ways, as it is and
read as a list of nodes; the field `children` takes the second, all others the first. So the
recursion follows the value and not the fields.
-/

namespace NetScribe

namespace Json

/-- A value as a string. -/
def asText (expected : String) : Json → Except Cause String
  | .string text => .ok text
  | other => .error (.mismatch other.describe expected)

/-- A value as a file reference. -/
def asPath (value : Json) : Except Cause Path :=
  (asText "path string" value).map Path.mk

/-- A value as a number. -/
def asNumber : Json → Except Cause Binary64
  | .integer i => .ok (Binary64.ofInt i)
  | .float x => .ok x
  | other => .error (.mismatch other.describe "f64")

/-- A value as a list of numbers. -/
def asNumbers : Json → Except Cause (List Binary64)
  | .array items => items.mapM asNumber
  | other => .error (.mismatch other.describe "a sequence")

end Json

/-! ## Bindings -/

/-- A binding from its fields. -/
def Binding.form : Form (Option String × Option String) Binding where
  record := "CallResult"
  fields := ["type_name", "var"]
  empty := (none, none)
  has draft field := if field = "type_name" then draft.1.isSome else draft.2.isSome
  finish draft := do
    let typeName ← Form.required "type_name" draft.1
    let var ← Form.required "var" draft.2
    .ok ⟨typeName, var⟩

/-- Take up a field of a binding. -/
def Binding.set (field : String) (draft : Option String × Option String) (value : Json) :
    Except Json.Cause (Option String × Option String) := do
  let text ← value.asText "a string"
  .ok (if field = "type_name" then (some text, draft.2) else (draft.1, some text))

/-- A value as the binding of a call; `null` is no binding. -/
def Json.asBinding? : Json → Except Cause (Option Binding)
  | .null => .ok none
  | .array items => (Binding.form.ofItems Binding.set items).map some
  | .object members => (Binding.form.ofMembers Binding.set members).map some
  | other => .error (.mismatch other.describe ("struct " ++ Binding.form.record))

/-! ## Nodes -/

/-- A value below a node: as it is, and read as a list of nodes. -/
structure Part where
  value : Json
  nodes : Except Json.Cause (List Node)

/-- The fields of a node, as far as they are known. -/
structure NodeDraft where
  text : Option String := none
  name : Option String := none
  children : Option (List Node) := none
  typeName : Option String := none
  constant : Option String := none
  result : Option (Option Binding) := none
  values : Option (List Binary64) := none
  model : Option Path := none
  data : Option Path := none

namespace NodeDraft

/-- A field is known. -/
def has (draft : NodeDraft) (field : String) : Bool :=
  match field with
  | "text" => draft.text.isSome
  | "name" => draft.name.isSome
  | "children" => draft.children.isSome
  | "type_name" => draft.typeName.isSome
  | "value" => draft.constant.isSome
  | "result" => draft.result.isSome
  | "values" => draft.values.isSome
  | "model" => draft.model.isSome
  | "data" => draft.data.isSome
  | _ => false

/-- Take up a field. -/
def set (field : String) (draft : NodeDraft) (part : Part) : Except Json.Cause NodeDraft :=
  match field with
  | "text" => do .ok { draft with text := ← part.value.asText "a string" }
  | "name" => do .ok { draft with name := ← part.value.asText "a string" }
  | "children" => do .ok { draft with children := ← part.nodes }
  | "type_name" => do .ok { draft with typeName := ← part.value.asText "a string" }
  | "value" => do .ok { draft with constant := ← part.value.asText "a string" }
  | "result" => do .ok { draft with result := some (← part.value.asBinding?) }
  | "values" => do .ok { draft with values := ← part.value.asNumbers }
  | "model" => do .ok { draft with model := ← part.value.asPath }
  | "data" => do .ok { draft with data := ← part.value.asPath }
  | _ => .ok draft

end NodeDraft

namespace Tag

/-- The name of a kind of node in messages. -/
def record : Tag → String
  | comment => "CommentNode"
  | classDecl => "ClassNode"
  | mainFunction => "MainFunctionNode"
  | staticFunction => "StaticFunctionNode"
  | const => "ConstNode"
  | call => "FunctionCallNode"
  | array => "InitArrayNode"
  | network => "CreateNetworkNode"
  | embedTraining => "EmbedTrainingNode"
  | loadTraining => "LoadTrainingNode"

/-- The fields of a kind of node, in order. -/
def fields : Tag → List String
  | comment => ["text"]
  | classDecl => ["name", "children"]
  | mainFunction => ["children"]
  | staticFunction => ["name", "children"]
  | const => ["name", "type_name", "value"]
  | call => ["name", "result"]
  | array => ["name", "values"]
  | network => ["name", "model"]
  | embedTraining => ["data"]
  | loadTraining => ["name", "data"]

/-- The node of a draft, or the first field that is missing. A container without children is
empty, and a call without a result binds nothing. -/
def finish (tag : Tag) (draft : NodeDraft) : Except String Node :=
  match tag with
  | comment => do .ok (.comment (← Form.required "text" draft.text))
  | classDecl => do
    .ok (.classDecl (← Form.required "name" draft.name) (draft.children.getD []))
  | mainFunction => .ok (.mainFunction (draft.children.getD []))
  | staticFunction => do
    .ok (.staticFunction (← Form.required "name" draft.name) (draft.children.getD []))
  | const => do
    .ok (.const (← Form.required "name" draft.name) (← Form.required "type_name" draft.typeName)
      (← Form.required "value" draft.constant))
  | call => do .ok (.call (← Form.required "name" draft.name) (draft.result.getD none))
  | array => do
    .ok (.array (← Form.required "name" draft.name) (← Form.required "values" draft.values))
  | network => do
    .ok (.network (← Form.required "name" draft.name) (← Form.required "model" draft.model))
  | embedTraining => do .ok (.embedTraining (← Form.required "data" draft.data))
  | loadTraining => do
    .ok (.loadTraining (← Form.required "name" draft.name) (← Form.required "data" draft.data))

/-- How a node of a kind is put together. -/
def form (tag : Tag) : Form NodeDraft Node where
  record := tag.record
  fields := tag.fields
  empty := {}
  has := NodeDraft.has
  finish := tag.finish

/-- The node of a tag and its members. -/
def ofMembers (tag : Tag) (members : List (String × Part)) : Except Json.Cause Node :=
  tag.form.ofMembers NodeDraft.set members

/-- The node of a tag and its fields in order. -/
def ofItems (tag : Tag) (items : List Part) : Except Json.Cause Node :=
  tag.form.ofItems NodeDraft.set items

/-- The tag of a spelling, or the fault of an unknown one. -/
def ofText (spelling : String) : Except Json.Cause Tag :=
  match ofText? spelling with
  | some tag => .ok tag
  | none => .error (.unknownTag spelling (all.map text))

/-- What a tag is called when something else was found. -/
def expected : String := "variant identifier"

/-- The tag of a value: its spelling, or its number in the order of all tags. -/
def ofValue : Json → Except Json.Cause Tag
  | .string spelling => ofText spelling
  | .integer (.ofNat index) =>
    match all[index]? with
    | some tag => .ok tag
    | none => .error (.tagIndex index all.length)
  | other => .error (.mismatch other.describe expected)

/-- The key of the member that holds the tag. -/
def key : String := "type"

/-- The tag among the members of a node, and the other members. -/
def extract : List (String × Part) → Except Json.Cause (Option Tag × List (String × Part))
  | members => members.foldlM (fun (tag, others) (name, part) =>
      if name = key then
        match tag with
        | some _ => .error (.duplicateField key)
        | none => do .ok (some (← ofValue part.value), others)
      else .ok (tag, others ++ [(name, part)])) (none, [])

/-- The node of an object's members, the tag among them. -/
def nodeOfMembers (members : List (String × Part)) : Except Json.Cause Node := do
  match ← extract members with
  | (none, _) => .error (.missingField key)
  | (some tag, others) => tag.ofMembers others

/-- The node of an array's items, the tag first. -/
def nodeOfItems : List Part → Except Json.Cause Node
  | [] => .error (.missingField key)
  | first :: rest => do (← ofValue first.value).ofItems rest

end Tag

/-- What a node is called when something else was found. -/
def Node.expected : String := "internally tagged enum Node"

mutual

/-- A value as a node. -/
def Json.asNode : Json → Except Json.Cause Node
  | .array items => Tag.nodeOfItems (parts items)
  | .object members => Tag.nodeOfMembers (memberParts members)
  | other => .error (.mismatch other.describe Node.expected)

/-- A value as a list of nodes. -/
def Json.asNodes : Json → Except Json.Cause (List Node)
  | .array items => nodeList items
  | other => .error (.mismatch other.describe "a sequence")

/-- Values as nodes, up to the first that is none. -/
def Json.nodeList : List Json → Except Json.Cause (List Node)
  | [] => .ok []
  | item :: rest => do .ok ((← item.asNode) :: (← nodeList rest))

/-- The items of a node. -/
def Json.parts : List Json → List Part
  | [] => []
  | item :: rest => ⟨item, item.asNodes⟩ :: parts rest

/-- The members of a node. -/
def Json.memberParts : List (String × Json) → List (String × Part)
  | [] => []
  | (key, value) :: rest => (key, ⟨value, value.asNodes⟩) :: memberParts rest

end

end NetScribe
