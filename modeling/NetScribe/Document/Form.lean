import NetScribe.Json.Skip

/-!
# Records in JSON

A record may be written as an object or, leaving out the names, as an array of its fields in order.
Fields are taken up one by one into a draft; a finished draft gives the record or names the first
field that is missing. The same form serves a record that is read straight from the text and one
whose JSON value is already there; only the places of its faults differ.
-/

namespace NetScribe

/-- How a record of type `α` is put together from drafts of type `δ`. -/
structure Form (δ α : Type) where
  /-- The name of the record in messages. -/
  record : String
  /-- Its fields in order. -/
  fields : List String
  empty : δ
  /-- A field has been taken up already. -/
  has : δ → String → Bool
  /-- The record, or the first field that is missing. -/
  finish : δ → Except String α

/-- The value of a field that has to be there. -/
def Form.required {α : Type} (field : String) : Option α → Except String α
  | some value => .ok value
  | none => .error field

namespace Form

variable {δ α ε : Type} (form : Form δ α)

/-! ## From values -/

/-- The record of an object's members. They are taken up in the order written; unknown ones are
ignored, repeated ones refused. -/
def ofMembers (set : String → δ → ε → Except Json.Cause δ) (members : List (String × ε)) :
    Except Json.Cause α := do
  let draft ← members.foldlM (fun draft (key, value) =>
    if form.fields.contains key then
      if form.has draft key then .error (.duplicateField key) else set key draft value
    else .ok draft) form.empty
  match form.finish draft with
  | .ok record => .ok record
  | .error field => .error (.missingField field)

/-- The record of an array's items. -/
def ofItems (set : String → δ → ε → Except Json.Cause δ) (items : List ε) :
    Except Json.Cause α := do
  let draft ← (form.fields.zip items).foldlM (fun draft (field, value) => set field draft value)
    form.empty
  match form.finish draft with
  | .error _ => .error (.tooShort items.length form.record form.fields.length)
  | .ok record =>
    if form.fields.length < items.length then
      .error (.tooLong items.length form.fields.length)
    else .ok record

/-! ## From text -/

variable (set : String → δ → Json.Reader δ)

/-- A member of the record: unknown ones are passed over, repeated ones refused. -/
def readMember (draft : δ) (key : String) : Json.Reader δ := fun text =>
  if form.fields.contains key then
    if form.has draft key then .error ⟨.duplicateField key, Json.afterMember text⟩
    else do set key draft (← Json.colon text)
  else do
    let rest ← Json.skipValue (← Json.colon text)
    .ok (draft, rest)

/-- Items taken up as the fields in order, as long as there are any, and how many there were. -/
def readItems : List String → Nat → δ → Json.Reader (Nat × δ)
  | [], count, draft, text => .ok ((count, draft), text)
  | field :: fields, count, draft, text => do
    let (more, rest) ← Json.nextItem (count == 0) text
    if more then
      let (draft, rest) ← set field draft rest
      readItems fields (count + 1) draft rest
    else .ok ((count, draft), rest)

/-- The record written as an object or as an array. -/
def read : Json.Reader α := fun text =>
  match Json.skipBlanks text with
  | [] => .error ⟨.endOfValue, []⟩
  | '\x7b' :: rest => do
    let (draft, rest) ← Json.members (form.readMember set) form.empty rest
    match form.finish draft with
    | .error field => .error ⟨.missingField field, Json.afterMember rest⟩
    | .ok record => do .ok (record, ← Json.closeObject rest)
  | '[' :: rest => do
    let ((count, draft), rest) ← readItems set form.fields 0 form.empty rest
    match form.finish draft with
    | .error _ =>
      .error ⟨.tooShort count form.record form.fields.length, Json.afterItem rest⟩
    | .ok record => do .ok (record, ← Json.closeList rest)
  | text => .error (Json.mismatchFault ("struct " ++ form.record) text)

end Form

end NetScribe
