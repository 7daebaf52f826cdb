import NetScribe.Number.Fixed

/-!
# Literals of the written program

Numbers are rounded to a fixed number of decimals and never depend on a locale; texts are put
between quotes with four characters escaped. Long arrays are broken into lines of a few numbers,
and `batchLines` keeps the commas where one list without line breaks would have them.
-/

namespace NetScribe.Java

/-- Decimal places of every number in a written program. -/
def defaultPrecision : Nat := 10

/-- Most numbers on one line of an array. -/
def arrayBatch : Nat := 10

/-- The text of one number. What is not a finite number is written as zero. -/
def numberText (precision : Nat) (x : Binary64) : String :=
  if x.isFinite then String.ofList (Decimal.fixed x.negative (x.scaled precision) precision)
  else "0"

/-- The most decimal places a finite number can be written with. -/
def maxPrecision : Nat := 65535

/-- The text of one number, refused if it takes more places than can be written. What is written as
zero takes none. -/
def numberText? (precision : Nat) (x : Binary64) : Option String :=
  if x.isFinite && maxPrecision < precision then none else some (numberText precision x)

/-- Within the limit no number is refused. -/
theorem numberText?_of_le {precision : Nat} (h : precision ≤ maxPrecision) (x : Binary64) :
    numberText? precision x = some (numberText precision x) := by
  have small : ¬maxPrecision < precision := Nat.not_lt.mpr h
  simp [numberText?, small]

/-- The numbers with commas between them and no blanks. -/
def numberList (precision : Nat) (values : List Binary64) : String :=
  ",".intercalate (values.map (numberText precision))

/-- The numbers with commas between them, unless one of them is refused. -/
def numberList? (precision : Nat) (values : List Binary64) : Option String :=
  (values.mapM (numberText? precision)).map fun texts => ",".intercalate texts

/-- Consecutive groups of `size + 1` items; the last one may be shorter. -/
def groups {α : Type} (size : Nat) : List α → List (List α)
  | [] => []
  | x :: xs => (x :: xs.take size) :: groups size (xs.drop size)
termination_by xs => xs.length
decreasing_by simp only [List.length_drop, List.length_cons]; omega

/-- One line per group; every line but the last ends with a comma. -/
def commaLines : List (List String) → List String
  | [] => []
  | [last] => [",".intercalate last]
  | line :: next :: rest => (",".intercalate line ++ ",") :: commaLines (next :: rest)

/-- The numbers on lines of at most `batch` of them, a batch of zero counting as one. Every number
is followed by a comma except the last of all. -/
def batchLines (precision batch : Nat) (values : List Binary64) : List String :=
  commaLines (groups (batch - 1) (values.map (numberText precision)))

/-- The numbers on lines of at most `batch` of them, unless one of them is refused. -/
def batchLines? (precision batch : Nat) (values : List Binary64) : Option (List String) :=
  (values.mapM (numberText? precision)).map fun texts => commaLines (groups (batch - 1) texts)

/-! ## Quoted text -/

/-- How one character stands between quotes. -/
def escapeChar : Char → List Char
  | '\\' => ['\\', '\\']
  | '"' => ['\\', '"']
  | '\n' => ['\\', 'n']
  | '\t' => ['\\', 't']
  | c => [c]

/-- A text as it stands between quotes. -/
def escape (text : String) : String :=
  String.ofList (text.toList.flatMap escapeChar)

/-- A text as a literal. -/
def quoted (text : String) : String :=
  "\"" ++ escape text ++ "\""

end NetScribe.Java
