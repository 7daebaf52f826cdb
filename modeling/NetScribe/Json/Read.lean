import NetScribe.Json.Numbers

/-!
# Reading values

Values are read from left to right. Lists and objects are loops over what stands next, an item or
the end; a value inside a bracket may itself have one bracket less around its contents, so nested
reading recurses on the number of brackets still allowed.
-/

namespace NetScribe.Json

/-- A character between tokens. -/
def isBlank (c : Char) : Bool := c == ' ' || c == '\n' || c == '\t' || c == '\r'

/-- The text from its first character that is no blank. -/
def skipBlanks (text : List Char) : List Char := text.dropWhile isBlank

/-- The text behind the rest of a fixed word. -/
def word : List Char → List Char → Except Fault (List Char)
  | [], text => .ok text
  | _ :: _, [] => .error ⟨.endOfValue, []⟩
  | w :: ws, c :: text => if c = w then word ws text else .error ⟨.expectedIdent, text⟩

/-- The value that starts with a character, if a value without brackets can start with it. -/
def scalar? (c : Char) (rest : List Char) : Option (Except Fault (Json × List Char)) :=
  match c with
  | 'n' => some ((word ['u', 'l', 'l'] rest).map (.null, ·))
  | 't' => some ((word ['r', 'u', 'e'] rest).map (.bool true, ·))
  | 'f' => some ((word ['a', 'l', 's', 'e'] rest).map (.bool false, ·))
  | '-' => some (number true rest)
  | '"' => some ((stringBody rest).map fun (text, rest) => (.string text, rest))
  | c => if isDigit c then some (number false (c :: rest)) else none

/-! ## What stands next -/

/-- Whether another item of a list follows, and the text from there on. -/
def nextItem (first : Bool) : Reader Bool := fun text =>
  match skipBlanks text with
  | [] => .error ⟨.endOfList, []⟩
  | ']' :: rest => .ok (false, ']' :: rest)
  | c :: rest =>
    if first then .ok (true, c :: rest)
    else if c = ',' then
      match skipBlanks rest with
      | [] => .error ⟨.endOfValue, []⟩
      | ']' :: rest => .error ⟨.trailingComma, rest⟩
      | rest => .ok (true, rest)
    else .error ⟨.expectedListCommaOrEnd, rest⟩

/-- The key of the next member of an object, if another follows, and the text from there on. -/
def nextKey (first : Bool) : Reader (Option String) := fun text =>
  match skipBlanks text with
  | [] => .error ⟨.endOfObject, []⟩
  | '\x7d' :: rest => .ok (none, '\x7d' :: rest)
  | c :: rest =>
    if first then
      if c = '"' then (stringBody rest).map fun (key, rest) => (some key, rest)
      else .error ⟨.keyMustBeString, rest⟩
    else if c = ',' then
      match skipBlanks rest with
      | [] => .error ⟨.endOfValue, []⟩
      | '"' :: rest => (stringBody rest).map fun (key, rest) => (some key, rest)
      | '\x7d' :: rest => .error ⟨.trailingComma, rest⟩
      | _ :: rest => .error ⟨.keyMustBeString, rest⟩
    else .error ⟨.expectedObjectCommaOrEnd, rest⟩

/-- The text behind the colon of a member. -/
def colon (text : List Char) : Except Fault (List Char) :=
  match skipBlanks text with
  | [] => .error ⟨.endOfObject, []⟩
  | ':' :: rest => .ok rest
  | _ :: rest => .error ⟨.expectedColon, rest⟩

/-- The text behind the end of a list that holds no more items. -/
def closeList (text : List Char) : Except Fault (List Char) :=
  match skipBlanks text with
  | [] => .error ⟨.endOfList, []⟩
  | ']' :: rest => .ok rest
  | ',' :: rest =>
    match skipBlanks rest with
    | ']' :: rest => .error ⟨.trailingComma, rest⟩
    | rest => .error (.onNext .trailingCharacters rest)
  | _ :: rest => .error ⟨.trailingCharacters, rest⟩

/-- The text behind the end of an object that holds no more members. -/
def closeObject (text : List Char) : Except Fault (List Char) :=
  match skipBlanks text with
  | [] => .error ⟨.endOfObject, []⟩
  | '\x7d' :: rest => .ok rest
  | ',' :: rest => .error ⟨.trailingComma, rest⟩
  | _ :: rest => .error ⟨.trailingCharacters, rest⟩

/-! ## Where a fault without a place is put

Some faults are about a whole list or object. They are put where its end would be looked for. -/

/-- The place of a fault about a list. -/
def afterItem (text : List Char) : List Char :=
  match skipBlanks text with
  | ']' :: rest => rest
  | ',' :: rest => skipBlanks rest
  | rest => rest

/-- The place of a fault about an object. -/
def afterMember (text : List Char) : List Char :=
  match skipBlanks text with
  | '\x7d' :: rest => rest
  | rest => rest

/-! ## Loops -/

section Loops

variable {α : Type}

/-- The items up to the end of a list, which is left unread. The first argument bounds the rounds;
every round reads a character, so a text bounds the rounds on itself. -/
def itemsFrom (item : Reader α) : List Char → Bool → List α → Reader (List α)
  | [], _, _, text => .error ⟨.endOfList, text⟩
  | _ :: bound, first, read, text => do
    let (more, rest) ← nextItem first text
    if more then
      let (a, rest) ← item rest
      itemsFrom item bound false (a :: read) rest
    else .ok (read.reverse, rest)

/-- The items of a list from behind its opening bracket, and the text behind its closing one. -/
def items (item : Reader α) : Reader (List α) := fun text => do
  let (read, rest) ← itemsFrom item text true [] text
  let rest ← closeList rest
  .ok (read, rest)

/-- The members up to the end of an object, which is left unread, with rounds bounded as for items.
Each takes what was read so far, its key and the text behind the key. -/
def membersFrom (member : α → String → Reader α) : List Char → Bool → α → Reader α
  | [], _, _, text => .error ⟨.endOfObject, text⟩
  | _ :: bound, first, read, text => do
    match ← nextKey first text with
    | (none, rest) => .ok (read, rest)
    | (some key, rest) =>
      let (read, rest) ← member read key rest
      membersFrom member bound false read rest

/-- The members of an object from behind its opening bracket up to its closing one. -/
def members (member : α → String → Reader α) (start : α) : Reader α := fun text =>
  membersFrom member text true start text

end Loops

/-! ## Values -/

/-- A member with any value, put in front of those read so far. -/
def anyMember (value : Reader Json) (read : List (String × Json)) (key : String) :
    Reader (List (String × Json)) := fun text => do
  let rest ← colon text
  let (v, rest) ← value rest
  .ok ((key, v) :: read, rest)

/-- A value whose brackets hold what `inner` reads; none if no bracket is allowed any more. -/
def valueWith (inner : Option (Reader Json)) : Reader Json := fun text =>
  match skipBlanks text with
  | [] => .error ⟨.endOfValue, []⟩
  | '[' :: rest =>
    match inner with
    | none => .error ⟨.nestingLimit, rest⟩
    | some value => (items value rest).map fun (read, rest) => (.array read, rest)
  | '\x7b' :: rest =>
    match inner with
    | none => .error ⟨.nestingLimit, rest⟩
    | some value => do
      let (read, rest) ← members (anyMember value) [] rest
      let rest ← closeObject rest
      .ok (.object read.reverse, rest)
  | c :: rest => (scalar? c rest).getD (.error ⟨.expectedValue, rest⟩)

/-- A value with at most so many brackets around one another. -/
def value : Nat → Reader Json
  | 0 => valueWith none
  | n + 1 => valueWith (some (value n))

/-- The fault of a value that is not what is needed, at a text that starts with no blank. -/
def mismatchFault (expected : String) : List Char → Fault
  | [] => ⟨.endOfValue, []⟩
  | '[' :: rest => ⟨.mismatch "sequence" expected, '[' :: rest⟩
  | '\x7b' :: rest => ⟨.mismatch "map" expected, '\x7b' :: rest⟩
  | c :: rest =>
    match scalar? c rest with
    | some (.ok (found, rest)) => ⟨.mismatch found.describe expected, rest⟩
    | some (.error fault) => fault
    | none => ⟨.expectedValue, rest⟩

end NetScribe.Json
