import NetScribe.Files.Fault
import NetScribe.Files.Tree

/-!
# Disks

A disk is a file tree and the place in it where a run works. Paths are followed the way an operating
system follows them: relative ones from the working directory, every piece needs a directory to be
looked up in, and `..` leads back up and stays at the top. The empty path is the working directory.
-/

namespace NetScribe.Files

/-- A file tree and the place that relative paths start from. -/
structure Disk where
  tree : Tree
  here : List String := []

namespace Disk

/-- What the working directory holds. -/
def working (disk : Disk) : Tree := (disk.tree.get? disk.here).getD default

/-- The longest name, in bytes. -/
def maxName : Nat := 255

/-- The longest path, in bytes. -/
def maxPath : Nat := 4095

/-- A path whose text no system call takes. -/
def refused? (path : Path) : Option Fault :=
  if path.text.toList.contains '\x00' then some .nulByte
  else if maxPath < path.text.utf8ByteSize then some .nameTooLong
  else none

/-- A path that a system call takes. -/
def opens (path : Path) : Bool := (refused? path).isNone

/-- The place a path is followed from. -/
def start (disk : Disk) (path : Path) : List String :=
  if path.text.toList.head? = some '/' then [] else disk.here

/-- Follow one piece of a path from a place. -/
def followPiece (disk : Disk) (place : List String) (piece : List Char) :
    Except Fault (List String) :=
  match disk.tree.get? place with
  | none => .error .notFound
  | some found =>
    if !found.isDirectory then .error .notDirectory
    else if Path.isIdle piece then .ok place
    else if piece = ['.', '.'] then .ok place.dropLast
    else
      let name := String.ofList piece
      if maxName < name.utf8ByteSize then .error .nameTooLong
      else if (found.child? name).isSome then .ok (place ++ [name])
      else .error .notFound

/-- Follow pieces of a path from a place. -/
def followPieces (disk : Disk) (place : List String) (pieces : List (List Char)) :
    Except Fault (List String) :=
  pieces.foldlM disk.followPiece place

/-- The place a path leads to. -/
def follow (disk : Disk) (path : Path) : Except Fault (List String) :=
  match refused? path with
  | some fault => .error fault
  | none => disk.followPieces (disk.start path) (path.text.toList.splitOn '/')

/-- What a path leads to. -/
def lookup? (disk : Disk) (path : Path) : Option Tree :=
  match disk.follow path with
  | .ok place => disk.tree.get? place
  | .error _ => none

/-- The content of the file a path leads to. -/
def readFile (disk : Disk) (path : Path) : Except Fault ByteArray :=
  match disk.follow path with
  | .error fault => .error fault
  | .ok place =>
    match disk.tree.get? place with
    | some (.file content) => .ok content
    | some (.directory _) => .error .isDirectory
    | none => .error .notFound

/-- The place of a file to be written: its directory has to be there, the file does not. -/
def followTarget (disk : Disk) (path : Path) : Except Fault (List String) :=
  match refused? path with
  | some fault => .error fault
  | none =>
    let pieces := path.text.toList.splitOn '/'
    let last := pieces.getLast?.getD []
    match disk.followPieces (disk.start path) pieces.dropLast with
    | .error fault => .error fault
    | .ok place =>
      match disk.followPiece place last with
      | .ok target => .ok target
      | .error .notFound => .ok (place ++ [String.ofList last])
      | .error fault => .error fault

/-- The disk with a file written. -/
def writeFile (disk : Disk) (path : Path) (content : ByteArray) : Except Fault Disk :=
  match disk.followTarget path with
  | .error fault => .error fault
  | .ok place =>
    match disk.tree.get? place with
    | some (.directory _) => .error .isDirectory
    | _ => .ok { disk with tree := disk.tree.put place (.file content) }

/-- The disk without a file; what is no file stays. -/
def removeFile (disk : Disk) (path : Path) : Disk :=
  match disk.follow path with
  | .error _ => disk
  | .ok place =>
    match disk.tree.get? place with
    | some (.file _) => { disk with tree := disk.tree.erase place }
    | _ => disk

end Disk

end NetScribe.Files
