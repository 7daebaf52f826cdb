/-!
# Lines of a text

A line feed ends a line, and one carriage return in front of it belongs to the ending. Nothing
follows the last ending, so a text that ends with one has no empty line behind it.
-/

namespace NetScribe.Text

/-- The lines of a text, without their endings. -/
def splitLines : List Char → List (List Char)
  | [] => []
  | '\r' :: '\n' :: rest => [] :: splitLines rest
  | '\n' :: rest => [] :: splitLines rest
  | c :: rest =>
    match splitLines rest with
    | [] => [[c]]
    | line :: others => (c :: line) :: others

/-- The lines of a text, without their endings. -/
def lines (text : String) : List String :=
  (splitLines text.toList).map String.ofList

end NetScribe.Text
