import NetScribe.Document.Nodes
import NetScribe.Failure

/-!
# Reading documents

Outside nodes everything is checked while it is read, from left to right. A node at the top of the
program is read as a whole first, except for its tag, which is checked on sight; what is wrong with
it otherwise is put behind it.
-/

namespace NetScribe

namespace Json

/-! ## Simple values -/

/-- A string where one is needed. -/
def readText : Reader String := fun text =>
  match skipBlanks text with
  | [] => .error ⟨.endOfValue, []⟩
  | '"' :: rest => stringBody rest
  | text => .error (mismatchFault "a string" text)

/-- A number that was read, as a binary number. -/
def toNumber (read : Except Fault (Json × List Char)) : Except Fault (Binary64 × List Char) :=
  match read with
  | .error fault => .error fault
  | .ok (value, rest) =>
    match value.asNumber with
    | .ok x => .ok (x, rest)
    | .error cause => .error ⟨cause, rest⟩

/-- A number where one is needed. -/
def readNumber : Reader Binary64 := fun text =>
  match skipBlanks text with
  | [] => .error ⟨.endOfValue, []⟩
  | '-' :: rest => toNumber (number true rest)
  | c :: rest =>
    if isDigit c then toNumber (number false (c :: rest))
    else .error (mismatchFault "f64" (c :: rest))

section Containers

variable {α : Type}

/-- A list where one is needed. -/
def readList (item : Reader α) : Reader (List α) := fun text =>
  match skipBlanks text with
  | [] => .error ⟨.endOfValue, []⟩
  | '[' :: rest => items item rest
  | text => .error (mismatchFault "a sequence" text)

/-- A value that may be `null`. -/
def readOptional (value : Reader α) : Reader (Option α) := fun text =>
  match skipBlanks text with
  | 'n' :: rest => (word ['u', 'l', 'l'] rest).map (none, ·)
  | text => (value text).map fun (a, rest) => (some a, rest)

/-- Values under references where they are needed; a later one replaces an earlier one. -/
def readTable (value : Reader α) : Reader (Table α) := fun text =>
  match skipBlanks text with
  | [] => .error ⟨.endOfValue, []⟩
  | '\x7b' :: rest => do
    let (table, rest) ← members (fun (table : Table α) key text => do
      let (a, rest) ← value (← colon text)
      .ok (table.insert ⟨key⟩ a, rest)) .empty rest
    .ok (table, ← closeObject rest)
  | text => .error (mismatchFault "a map" text)

end Containers

end Json

/-! ## Resources -/

/-- A recipe from its fields. -/
def Recipe.form : Form (Option String × Option String) Recipe where
  record := "FactoryMetadata"
  fields := ["type", "architecture"]
  empty := (none, none)
  has draft field := if field = "type" then draft.1.isSome else draft.2.isSome
  finish draft := do
    let method ← Form.required "type" draft.1
    let architecture ← Form.required "architecture" draft.2
    .ok ⟨method, architecture⟩

/-- A recipe. -/
def Recipe.read : Json.Reader Recipe :=
  Recipe.form.read fun field draft text => do
    let (value, rest) ← Json.readText text
    .ok (if field = "type" then (some value, draft.2) else (draft.1, some value), rest)

/-- A model from its fields, both of which may be absent. -/
def Model.form : Form (Option String × Option (Option Recipe)) Model where
  record := "StoredModel"
  fields := ["kind", "factory"]
  empty := (none, none)
  has draft field := if field = "kind" then draft.1.isSome else draft.2.isSome
  finish draft := .ok ⟨draft.1.getD "MLMethod", draft.2.getD none⟩

/-- A model. -/
def Model.read : Json.Reader Model :=
  Model.form.read fun field draft text =>
    if field = "kind" then do
      let (kind, rest) ← Json.readText text
      .ok ((some kind, draft.2), rest)
    else do
      let (recipe, rest) ← Json.readOptional Recipe.read text
      .ok ((draft.1, some recipe), rest)

/-- A training example from its fields. -/
def Pair.form : Form (Option (List Binary64) × Option (List Binary64)) Pair where
  record := "DataPair"
  fields := ["input", "ideal"]
  empty := (none, none)
  has draft field := if field = "input" then draft.1.isSome else draft.2.isSome
  finish draft := do
    let input ← Form.required "input" draft.1
    let ideal ← Form.required "ideal" draft.2
    .ok ⟨input, ideal⟩

/-- A training example. -/
def Pair.read : Json.Reader Pair :=
  Pair.form.read fun field draft text => do
    let (values, rest) ← Json.readList Json.readNumber text
    .ok (if field = "input" then (some values, draft.2) else (draft.1, some values), rest)

/-- A dataset. That its rows fit is looked at when all of them have been read. -/
def Dataset.read : Json.Reader Dataset := fun text => do
  let (pairs, rest) ← Json.readList Pair.read text
  match Dataset.ofPairs pairs with
  | .ok dataset => .ok (dataset, rest)
  | .error fault => .error ⟨.load fault, Json.afterMember rest⟩

/-- A store from its fields, both of which may be absent. -/
def Store.form : Form (Option (Table Model) × Option (Table Dataset)) Store where
  record := "ResourceStore"
  fields := ["models", "datasets"]
  empty := (none, none)
  has draft field := if field = "models" then draft.1.isSome else draft.2.isSome
  finish draft := .ok ⟨draft.1.getD .empty, draft.2.getD .empty⟩

/-- A store. -/
def Store.read : Json.Reader Store :=
  Store.form.read fun field draft text =>
    if field = "models" then do
      let (models, rest) ← Json.readTable Model.read text
      .ok ((some models, draft.2), rest)
    else do
      let (datasets, rest) ← Json.readTable Dataset.read text
      .ok ((draft.1, some datasets), rest)

/-! ## Programs -/

/-- The tag of a node at the top of the program, checked on sight. -/
def Tag.read : Json.Reader Tag := fun text =>
  match Json.skipBlanks text with
  | [] => .error ⟨.endOfValue, []⟩
  | '"' :: rest => do
    let (spelling, rest) ← Json.stringBody rest
    match Tag.ofText spelling with
    | .ok tag => .ok (tag, rest)
    | .error cause => .error ⟨cause, rest⟩
  | text => .error (Json.mismatchFault Tag.expected text)

namespace Node

/-- Brackets allowed inside the bracket of a node. A text may have 127 around one another, and the
document, the program and the node are three of them. -/
def nesting : Nat := 124

/-- A checked node, or its fault put behind it. -/
def placed (checked : Except Json.Cause Node) (rest : List Char) :
    Except Json.Fault (Node × List Char) :=
  match checked with
  | .ok node => .ok (node, rest)
  | .error cause => .error ⟨cause, Json.afterItem rest⟩

/-- A member of a node: the tag, which may come only once, or a value to be checked later. -/
def readMember (read : Option Tag × List (String × Json)) (key : String) :
    Json.Reader (Option Tag × List (String × Json)) := fun text =>
  if key = Tag.key then
    match read.1 with
    | some _ => .error ⟨.duplicateField key, Json.afterMember text⟩
    | none => do
      let (tag, rest) ← Tag.read (← Json.colon text)
      .ok ((some tag, read.2), rest)
  else do
    let (others, rest) ← Json.anyMember (Json.value nesting) read.2 key text
    .ok ((read.1, others), rest)

/-- A node at the top of the program. -/
def read : Json.Reader Node := fun text =>
  match Json.skipBlanks text with
  | [] => .error ⟨.endOfValue, []⟩
  | '[' :: rest => do
    let (more, rest) ← Json.nextItem true rest
    if more then
      let (tag, rest) ← Tag.read rest
      let (items, rest) ← Json.itemsFrom (Json.value nesting) rest false [] rest
      let rest ← Json.closeList rest
      placed (tag.ofItems (Json.parts items)) rest
    else .error ⟨.missingField Tag.key, Json.afterItem rest⟩
  | '\x7b' :: rest => do
    let ((tag, others), rest) ← Json.members readMember (none, []) rest
    match tag with
    | none => .error ⟨.missingField Tag.key, Json.afterMember rest⟩
    | some tag =>
      let rest ← Json.closeObject rest
      placed (tag.ofMembers (Json.memberParts others.reverse)) rest
  | text => .error (Json.mismatchFault Node.expected text)

end Node

/-! ## Documents -/

/-- A document from its fields; the resources may be absent. -/
def Document.form : Form (Option (List Node) × Option Store) Document where
  record := "ProgramDocument"
  fields := ["program", "resources"]
  empty := (none, none)
  has draft field := if field = "program" then draft.1.isSome else draft.2.isSome
  finish draft := do
    let nodes ← Form.required "program" draft.1
    .ok ⟨⟨nodes⟩, draft.2.getD {}⟩

/-- A document at the start of a text. -/
def Document.readStart : Json.Reader Document :=
  Document.form.read fun field draft text =>
    if field = "program" then do
      let (nodes, rest) ← Json.readList Node.read text
      .ok ((some nodes, draft.2), rest)
    else do
      let (store, rest) ← Store.read text
      .ok ((draft.1, some store), rest)

/-- A text that is a document and nothing else. -/
def Document.readAll (text : List Char) : Except Json.Fault Document := do
  let (document, rest) ← Document.readStart text
  match Json.skipBlanks rest with
  | [] => .ok document
  | rest => .error (.onNext .trailingCharacters rest)

/-- The document of a text. -/
def Document.ofText (text : String) : Except DocumentFault Document :=
  match Document.readAll text.toList with
  | .ok document => .ok document
  | .error fault => .error (.malformed fault.cause (fault.line text.toList))

end NetScribe
