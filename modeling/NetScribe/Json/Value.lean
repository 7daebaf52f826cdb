import NetScribe.Number.Shortest
import NetScribe.Text.Quoted

/-!
# JSON values

A value keeps the members of an object as they were written, in order and with repetitions.
Integers are told from other numbers, because messages do. The compact text of a value has no
blanks; a number that is not an integer is written with the fewest digits that read back.
-/

namespace NetScribe

/-- A JSON value. -/
inductive Json where
  | null
  | bool (value : Bool)
  /-- A number written without point and exponent that fits in sixty-four bits. -/
  | integer (value : Int)
  /-- Any other number. -/
  | float (value : Binary64)
  | string (text : String)
  | array (items : List Json)
  | object (members : List (String × Json))
  deriving Inhabited

namespace Json

/-! ## Numbers -/

/-- Exponents from -5 up to 15 are written with a plain point. -/
def floatLayout : Decimal.Layout := ⟨-5, 16⟩

/-- The text of a number that is not an integer. Zero keeps its sign, and what is no number is
`null`. -/
def floatChars (x : Binary64) : List Char :=
  if !x.isFinite then ['n', 'u', 'l', 'l']
  else
    let sign := if x.negative then ['-'] else []
    if x.isZero then sign ++ ['0', '.', '0']
    else
      let (count, k) := x.shortest
      sign ++ floatLayout.write count k

/-- The text of an integer. -/
def integerChars (i : Int) : List Char :=
  if i < 0 then '-' :: Nat.toDigits 10 i.natAbs else Nat.toDigits 10 i.natAbs

/-! ## Strings -/

/-- Four hexadecimal digits. -/
def hexChars (n : Nat) : List Char :=
  let digits := Nat.toDigits 16 n
  List.replicate (4 - digits.length) '0' ++ digits

/-- How one character stands between the quotes of a string. -/
def escapeChar (c : Char) : List Char :=
  match c with
  | '"' => ['\\', '"']
  | '\\' => ['\\', '\\']
  | '\x08' => ['\\', 'b']
  | '\x0c' => ['\\', 'f']
  | '\n' => ['\\', 'n']
  | '\r' => ['\\', 'r']
  | '\t' => ['\\', 't']
  | c =>
    if c.toNat < 0x20 then '\\' :: 'u' :: hexChars c.toNat else [c]

/-- A string between quotes. -/
def stringChars (text : String) : List Char :=
  '"' :: text.toList.flatMap escapeChar ++ ['"']

/-! ## Values -/

mutual

/-- The compact text of a value. -/
def chars : Json → List Char
  | null => ['n', 'u', 'l', 'l']
  | bool true => ['t', 'r', 'u', 'e']
  | bool false => ['f', 'a', 'l', 's', 'e']
  | integer i => integerChars i
  | float x => floatChars x
  | string text => stringChars text
  | array [] => ['[', ']']
  | array (first :: rest) => '[' :: chars first ++ itemChars rest ++ [']']
  | object [] => ['\x7b', '\x7d']
  | object ((key, value) :: rest) =>
    '\x7b' :: stringChars key ++ ':' :: chars value ++ memberChars rest ++ ['\x7d']

/-- The items behind the first, each with a comma in front. -/
def itemChars : List Json → List Char
  | [] => []
  | item :: rest => ',' :: chars item ++ itemChars rest

/-- The members behind the first, each with a comma in front. -/
def memberChars : List (String × Json) → List Char
  | [] => []
  | (key, value) :: rest => ',' :: stringChars key ++ ':' :: chars value ++ memberChars rest

end

/-- The compact text of a value. -/
def text (value : Json) : String :=
  String.ofList value.chars

/-- What a value is called when something else was needed. -/
def describe : Json → String
  | null => "null"
  | bool true => "boolean `true`"
  | bool false => "boolean `false`"
  | integer i => "integer `" ++ String.ofList (integerChars i) ++ "`"
  | float x => "floating point `" ++ String.ofList (floatChars x) ++ "`"
  | string text => "string " ++ Text.quote text
  | array _ => "sequence"
  | object _ => "map"

end Json

end NetScribe
