import NetScribe.Path.Basic

/-!
# Names in paths

The last component of a path is its name, unless it is `..`. A name is cut at its last dot into stem
and extension; a name whose only dot comes first is all stem. Replacing a name keeps the text in
front of it, less the slashes and dots that stand for nothing behind its last component. Replacing
an extension works on the text: the old one is cut off first, and what is left is given the new one.
-/

namespace NetScribe.Path

/-- A piece between slashes that stands for nothing. -/
def isIdle (piece : List Char) : Bool := piece == [] || piece == ['.']

/-- The pieces without idle ones at their end. -/
def trimPieces (pieces : List (List Char)) : List (List Char) :=
  (pieces.reverse.dropWhile isIdle).reverse

/-- A path cut into a leading slash or dot and the pieces behind it. -/
def cut (path : Path) : List Char × List (List Char) :=
  match path.text.toList with
  | '/' :: rest => (['/'], rest.splitOn '/')
  | letters =>
    match letters.splitOn '/' with
    | ['.'] :: rest => (['.'], rest)
    | pieces => ([], pieces)

/-- The text of a leading slash or dot and the pieces behind it. -/
def paste (lead : List Char) (pieces : List (List Char)) : Path :=
  let body := ['/'].intercalate pieces
  ⟨String.ofList (if lead == ['.'] && !pieces.isEmpty then lead ++ '/' :: body else lead ++ body)⟩

/-- The name of a path. -/
def fileName? (path : Path) : Option String :=
  match (trimPieces path.cut.2).getLast? with
  | none => none
  | some piece => if piece = ['.', '.'] then none else some (String.ofList piece)

/-- The path of what holds the last component. -/
def parent (path : Path) : Path :=
  let (lead, pieces) := path.cut
  paste lead (trimPieces (trimPieces pieces).dropLast)

/-- A path below a directory; an absolute one stands for itself. -/
def join (directory : Path) (below : String) : Path :=
  if below.toList.head? = some '/' then ⟨below⟩
  else if directory.text.isEmpty || directory.text.toList.getLast? = some '/' then
    ⟨directory.text ++ below⟩
  else ⟨directory.text ++ "/" ++ below⟩

/-- The path with another name. -/
def withFileName (path : Path) (name : String) : Path :=
  if path.fileName?.isSome then path.parent.join name else path.join name

/-- A name cut at its last dot into stem and extension. -/
def cutName (name : List Char) : List Char × Option (List Char) :=
  let back := name.reverse
  match back.dropWhile (· != '.') with
  | [] => (name, none)
  | [_] => (name, none)
  | _ :: stem => (stem.reverse, some (back.takeWhile (· != '.')).reverse)

/-- The extension of the name of a path. -/
def extension? (path : Path) : Option String := do
  let name ← path.fileName?
  let extension ← (cutName name.toList).2
  return String.ofList extension

/-- The name of a path without its extension. -/
def stem? (path : Path) : Option String := do
  let name ← path.fileName?
  return String.ofList (cutName name.toList).1

/-- The path with the letters of its extension cut off its end; the dot in front of them stays. -/
def cutExtension (path : Path) : Path :=
  match path.extension? with
  | some extension =>
    let letters := path.text.toList
    ⟨String.ofList (letters.take (letters.length - extension.length))⟩
  | none => path

/-- The path with another extension. What is left when the old one is cut off may have no name, as
`..` has none, and then nothing is put in its place. -/
def withExtension (path : Path) (extension : String) : Path :=
  let bare := path.cutExtension
  match bare.stem? with
  | some stem =>
    let pieces := (trimPieces (bare.text.toList.splitOn '/')).dropLast
    ⟨String.ofList (['/'].intercalate (pieces ++ [(stem ++ "." ++ extension).toList]))⟩
  | none => bare

end NetScribe.Path
