import NetScribe.Json.Fault

/-!
# Reading strings

A string is read from behind its opening quote to its closing one. Escapes are decoded, and
surrogates have to come in pairs. A string nobody needs is only passed over: its escapes are looked
at, but not what they stand for.
-/

namespace NetScribe.Json

/-- A step of reading: what was read and the text left, or a fault. -/
abbrev Reader (α : Type) := List Char → Except Fault (α × List Char)

/-- The character that an escape of one letter stands for. -/
def simpleEscape? : Char → Option Char
  | '"' => some '"'
  | '\\' => some '\\'
  | '/' => some '/'
  | 'b' => some '\x08'
  | 'f' => some '\x0c'
  | 'n' => some '\n'
  | 'r' => some '\r'
  | 't' => some '\t'
  | _ => none

/-- The value of a hexadecimal digit. -/
def hexDigit? (c : Char) : Option Nat :=
  if '0' ≤ c && c ≤ '9' then some (c.toNat - '0'.toNat)
  else if 'a' ≤ c && c ≤ 'f' then some (c.toNat - 'a'.toNat + 10)
  else if 'A' ≤ c && c ≤ 'F' then some (c.toNat - 'A'.toNat + 10)
  else none

/-- The value of four hexadecimal digits. -/
def hex4? (a b c d : Char) : Option Nat :=
  match hexDigit? a, hexDigit? b, hexDigit? c, hexDigit? d with
  | some a, some b, some c, some d => some (((a * 16 + b) * 16 + c) * 16 + d)
  | _, _, _, _ => none

/-- The first half of a surrogate pair. -/
def isLead (unit : Nat) : Bool := 0xd800 ≤ unit && unit ≤ 0xdbff

/-- The second half of a surrogate pair. -/
def isTrail (unit : Nat) : Bool := 0xdc00 ≤ unit && unit ≤ 0xdfff

/-- The character of a surrogate pair. -/
def ofPair (lead trail : Nat) : Char :=
  Char.ofNat (0x10000 + (lead - 0xd800) * 0x400 + (trail - 0xdc00))

/-- The text behind so many bytes, if it has as many. -/
def afterBytes : Nat → List Char → Option (List Char)
  | 0, text => some text
  | _ + 1, [] => none
  | n + 1, c :: text => afterBytes (n + 1 - c.utf8Size) text

/-- The fault of an escape whose four bytes are not four hexadecimal digits. -/
def hexFault (text : List Char) : Fault :=
  match afterBytes 4 text with
  | some rest => ⟨.invalidEscape, rest⟩
  | none => ⟨.endOfString, []⟩

/-- The fault of a first surrogate that no escape follows. -/
def pairFault : List Char → Fault
  | [] => ⟨.endOfString, []⟩
  | ['\\'] => ⟨.endOfString, []⟩
  | '\\' :: 'u' :: rest => hexFault rest
  | '\\' :: _ :: rest => ⟨.endOfHexEscape, rest⟩
  | _ :: rest => ⟨.endOfHexEscape, rest⟩

/-- The characters of a string, read in front of those in `read`, and the text behind its closing
quote. -/
def stringFrom (read : List Char) : Reader (List Char)
  | [] => .error ⟨.endOfString, []⟩
  | '"' :: rest => .ok (read.reverse, rest)
  | '\\' :: rest =>
    match rest with
    | [] => .error ⟨.endOfString, []⟩
    | 'u' :: a :: b :: c :: d :: rest =>
      match hex4? a b c d with
      | none => .error (hexFault (a :: b :: c :: d :: rest))
      | some unit =>
        if isTrail unit then .error ⟨.loneSurrogate, rest⟩
        else if isLead unit then
          match rest with
          | '\\' :: 'u' :: a :: b :: c :: d :: rest =>
            match hex4? a b c d with
            | none => .error (hexFault (a :: b :: c :: d :: rest))
            | some trail =>
              if isTrail trail then stringFrom (ofPair unit trail :: read) rest
              else .error ⟨.loneSurrogate, rest⟩
          | rest => .error (pairFault rest)
        else stringFrom (Char.ofNat unit :: read) rest
    | 'u' :: rest => .error (hexFault rest)
    | letter :: rest =>
      match simpleEscape? letter with
      | some c => stringFrom (c :: read) rest
      | none => .error ⟨.invalidEscape, rest⟩
  | c :: rest =>
    if c.toNat < 0x20 then .error ⟨.controlCharacter, rest⟩
    else stringFrom (c :: read) rest

/-- The string behind an opening quote. -/
def stringBody : Reader String := fun text =>
  (stringFrom [] text).map fun (letters, rest) => (String.ofList letters, rest)

/-- The text behind a string that is not needed. -/
def skipString : List Char → Except Fault (List Char)
  | [] => .error ⟨.endOfString, []⟩
  | '"' :: rest => .ok rest
  | '\\' :: rest =>
    match rest with
    | [] => .error ⟨.endOfString, []⟩
    | 'u' :: a :: b :: c :: d :: rest =>
      match hex4? a b c d with
      | none => .error (hexFault (a :: b :: c :: d :: rest))
      | some _ => skipString rest
    | 'u' :: rest => .error (hexFault rest)
    | letter :: rest =>
      if (simpleEscape? letter).isSome then skipString rest
      else .error ⟨.invalidEscape, rest⟩
  | c :: rest =>
    if c.toNat < 0x20 then .error ⟨.controlCharacter, c :: rest⟩
    else skipString rest

end NetScribe.Json
