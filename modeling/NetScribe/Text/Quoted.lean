import NetScribe.Text.Unprintable

/-!
# Text shown in quotes

Messages show a piece of foreign text between double quotes, with what does not print escaped, so
that the message stays on its line and the end of the piece can be seen.
-/

namespace NetScribe.Text

/-- How one character is shown between quotes. -/
def showChar (c : Char) : List Char :=
  match c with
  | '\x00' => ['\\', '0']
  | '\t' => ['\\', 't']
  | '\r' => ['\\', 'r']
  | '\n' => ['\\', 'n']
  | '\\' => ['\\', '\\']
  | '"' => ['\\', '"']
  | c =>
    if unprintable c then ['\\', 'u', '\x7b'] ++ Nat.toDigits 16 c.toNat ++ ['\x7d']
    else [c]

/-- A text between double quotes, with what does not print escaped. -/
def quote (text : String) : String :=
  String.ofList ('"' :: text.toList.flatMap showChar ++ ['"'])

end NetScribe.Text
