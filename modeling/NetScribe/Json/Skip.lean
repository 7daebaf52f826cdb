import NetScribe.Json.Read

/-!
# Values nobody needs

A value under an unknown key is passed over. Only its grammar is looked at, nothing limits its
brackets, and a comma promises a value: what follows one is never the end of a list.
-/

namespace NetScribe.Json

/-- A bracket that is open while a value is passed over. -/
inductive Frame where
  | list
  | object
  deriving DecidableEq

namespace Frame

/-- The bracket that closes it. -/
def close : Frame → Char
  | list => ']'
  | object => '\x7d'

/-- The text ends inside. -/
def ended : Frame → Cause
  | list => .endOfList
  | object => .endOfObject

/-- Neither a comma nor the closing bracket follows an item. -/
def expected : Frame → Cause
  | list => .expectedListCommaOrEnd
  | object => .expectedObjectCommaOrEnd

end Frame

/-- The text from where a value is due inside a bracket: behind a key and its colon in an object. -/
def skipToValue (frame : Frame) (text : List Char) : Except Fault (List Char) :=
  match frame with
  | .list => .ok text
  | .object =>
    match skipBlanks text with
    | [] => .error ⟨.endOfObject, []⟩
    | '"' :: rest => do colon (← skipString rest)
    | _ :: rest => .error ⟨.keyMustBeString, rest⟩

/-- Close brackets behind a value until another value is due. No bracket is left open if the whole
value has been passed over. -/
def unwind : List Frame → List Char → Except Fault (List Frame × List Char)
  | [], text => .ok ([], text)
  | frame :: outer, text =>
    match skipBlanks text with
    | [] => .error ⟨frame.ended, []⟩
    | c :: rest =>
      if c = ',' then do .ok (frame :: outer, ← skipToValue frame rest)
      else if c = frame.close then unwind outer rest
      else .error ⟨frame.expected, rest⟩

/-- Open a bracket, and close it at once if it is empty. -/
def openFrame (frame : Frame) (outer : List Frame) (text : List Char) :
    Except Fault (List Frame × List Char) :=
  match skipBlanks text with
  | [] => .error ⟨frame.ended, []⟩
  | c :: rest =>
    if c = frame.close then unwind outer rest
    else do .ok (frame :: outer, ← skipToValue frame (c :: rest))

/-- Pass over the start of a value: a whole value without brackets, or one bracket. -/
def skipStart (outer : List Frame) (text : List Char) : Except Fault (List Frame × List Char) :=
  match skipBlanks text with
  | [] => .error ⟨.endOfValue, []⟩
  | '[' :: rest => openFrame .list outer rest
  | '\x7b' :: rest => openFrame .object outer rest
  | '"' :: rest => do unwind outer (← skipString rest)
  | '-' :: rest => do unwind outer (← skipNumber rest)
  | 'n' :: rest => do unwind outer (← word ['u', 'l', 'l'] rest)
  | 't' :: rest => do unwind outer (← word ['r', 'u', 'e'] rest)
  | 'f' :: rest => do unwind outer (← word ['a', 'l', 's', 'e'] rest)
  | c :: rest =>
    if isDigit c then do unwind outer (← skipNumber (c :: rest))
    else .error ⟨.expectedValue, rest⟩

/-- Pass over values until no bracket is open. The first argument bounds the rounds; every round
reads a character, so a text bounds the rounds on itself. -/
def skipFrom : List Char → List Frame → List Char → Except Fault (List Char)
  | [], _, text => .error ⟨.endOfValue, text⟩
  | _ :: bound, outer, text => do
    match ← skipStart outer text with
    | ([], rest) => .ok rest
    | (frames, rest) => skipFrom bound frames rest

/-- The text behind a value that is not needed. -/
def skipValue (text : List Char) : Except Fault (List Char) :=
  skipFrom text [] text

end NetScribe.Json
