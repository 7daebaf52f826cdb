import NetScribe.Resource.Dataset

/-!
# Reading faults

A fault is a cause and the text that was still unread when it was found. The line it is reported on
follows from the two: one more than the line feeds already read.
-/

namespace NetScribe.Json

/-- Why a text is no document. -/
inductive Cause where
  | endOfValue
  | endOfList
  | endOfObject
  | endOfString
  | expectedValue
  | expectedIdent
  | expectedColon
  | expectedListCommaOrEnd
  | expectedObjectCommaOrEnd
  | trailingComma
  | trailingCharacters
  | keyMustBeString
  | invalidNumber
  | numberOutOfRange
  | invalidEscape
  | endOfHexEscape
  | loneSurrogate
  | controlCharacter
  | nestingLimit
  | missingField (name : String)
  | duplicateField (name : String)
  | unknownTag (tag : String) (known : List String)
  /-- A number that stands for no tag. -/
  | tagIndex (index count : Nat)
  /-- Something else was found than what is needed here. -/
  | mismatch (found expected : String)
  /-- A record written as an array that is too short. -/
  | tooShort (length : Nat) (record : String) (fields : Nat)
  /-- A record written as an array that is too long. -/
  | tooLong (length fields : Nat)
  | load (fault : LoadFault)
  deriving DecidableEq, Inhabited, Repr

/-- A number of elements in words. -/
def elementCount (n : Nat) : String :=
  if n = 1 then "1 element" else s!"{n} elements"

/-- The cause in words. -/
def Cause.message : Cause → String
  | endOfValue => "EOF while parsing a value"
  | endOfList => "EOF while parsing a list"
  | endOfObject => "EOF while parsing an object"
  | endOfString => "EOF while parsing a string"
  | expectedValue => "expected value"
  | expectedIdent => "expected ident"
  | expectedColon => "expected `:`"
  | expectedListCommaOrEnd => "expected `,` or `]`"
  | expectedObjectCommaOrEnd => "expected `,` or `\x7d`"
  | trailingComma => "trailing comma"
  | trailingCharacters => "trailing characters"
  | keyMustBeString => "key must be a string"
  | invalidNumber => "invalid number"
  | numberOutOfRange => "number out of range"
  | invalidEscape => "invalid escape"
  | endOfHexEscape => "unexpected end of hex escape"
  | loneSurrogate => "lone leading surrogate in hex escape"
  | controlCharacter => "control character (\\u0000-\\u001F) found while parsing a string"
  | nestingLimit => "recursion limit exceeded"
  | missingField name => "missing field `" ++ name ++ "`"
  | duplicateField name => "duplicate field `" ++ name ++ "`"
  | unknownTag tag known =>
    "unknown variant `" ++ tag ++ "`, expected one of " ++
      ", ".intercalate (known.map fun name => "`" ++ name ++ "`")
  | tagIndex index count =>
    s!"invalid value: integer `{index}`, expected variant index 0 <= i < {count}"
  | mismatch found expected => "invalid type: " ++ found ++ ", expected " ++ expected
  | tooShort length record fields =>
    s!"invalid length {length}, expected struct {record} with " ++ elementCount fields
  | tooLong length fields =>
    s!"invalid length {length}, expected " ++ elementCount fields ++ " in sequence"
  | load fault => fault.message

/-- A cause and the text left unread where it was found. -/
structure Fault where
  cause : Cause
  rest : List Char
  deriving DecidableEq, Inhabited, Repr

/-- The fault on the next character, which counts as read. -/
def Fault.onNext (cause : Cause) (text : List Char) : Fault := ⟨cause, text.tail⟩

/-- The line of a fault in a text: one more than the line feeds read. -/
def Fault.line (fault : Fault) (text : List Char) : Nat :=
  1 + (text.count '\n' - fault.rest.count '\n')

end NetScribe.Json
