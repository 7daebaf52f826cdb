import NetScribe.Files.Disk

/-!
# File operations

A run needs a handful of file operations. They are a class of monads, so that the same run works on
the files of a machine and on a disk that is a value; what is proved about runs is proved about the
latter.
-/

namespace NetScribe.Files

/-- What a path leads to. -/
inductive EntryKind where
  | file
  | directory
  deriving DecidableEq, Inhabited, Repr

/-- Monads with file operations. -/
class MonadFiles (m : Type → Type) where
  /-- What a path leads to, if anything. -/
  kind? : Path → m (Option EntryKind)
  /-- The content of a file. -/
  read : Path → m (Except Fault ByteArray)
  /-- Write a file, replacing what it held. -/
  write : Path → ByteArray → m (Except Fault Unit)
  /-- Remove a file. -/
  remove : Path → m Unit
  /-- All paths below a path, itself included: directories before what they hold, and names in
  order. What cannot be listed counts as empty. -/
  walk : Path → m (List Path)

/-- The kind of a tree. -/
def Tree.kind : Tree → EntryKind
  | .file _ => .file
  | .directory _ => .directory

/-- File operations on a disk. -/
instance : MonadFiles (StateM Disk) where
  kind? path := do return ((← get).lookup? path).map Tree.kind
  read path := do return (← get).readFile path
  write path content := do
    match (← get).writeFile path content with
    | .ok disk => do
      set disk
      return .ok ()
    | .error fault => return .error fault
  remove path := modify fun disk => disk.removeFile path
  walk path := do
    match (← get).lookup? path with
    | some tree => return tree.walk Disk.opens path
    | none => return []

/-- The text of a file's content. -/
def decode (content : Except Fault ByteArray) : Except Fault String :=
  match content with
  | .error fault => .error fault
  | .ok bytes =>
    match String.fromUTF8? bytes with
    | some text => .ok text
    | none => .error .notText

end NetScribe.Files
