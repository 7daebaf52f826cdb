import NetScribe.Path.Name

/-!
# File trees

A file tree is a file or a directory of named trees, kept in the order of their names. A place in it
is the list of names that lead there from the top.
-/

namespace NetScribe.Files

/-- A file or a directory. -/
inductive Tree where
  | file (content : ByteArray)
  | directory (entries : List (String × Tree))

namespace Tree

instance : Inhabited Tree := ⟨.directory []⟩

/-- The entries of a directory; a file has none. -/
def entries : Tree → List (String × Tree)
  | file _ => []
  | directory entries => entries

/-- A directory. -/
def isDirectory : Tree → Bool
  | file _ => false
  | directory _ => true

/-- What a directory holds under a name. -/
def child? (tree : Tree) (name : String) : Option Tree :=
  tree.entries.lookup name

/-- What stands at a place, given by the names that lead to it. -/
def get? : Tree → List String → Option Tree
  | tree, [] => some tree
  | tree, name :: rest => (tree.child? name).bind fun below => below.get? rest

/-- Entries with one of them set, in the order of names. -/
def setEntry (name : String) (tree : Tree) : List (String × Tree) → List (String × Tree)
  | [] => [(name, tree)]
  | (other, old) :: rest =>
    if name < other then (name, tree) :: (other, old) :: rest
    else if other < name then (other, old) :: setEntry name tree rest
    else (name, tree) :: rest

/-- The tree with something put at a place; directories on the way are made. -/
def put : Tree → List String → Tree → Tree
  | _, [], new => new
  | tree, name :: rest, new =>
    .directory (setEntry name (((tree.child? name).getD default).put rest new) tree.entries)

/-- The tree with nothing at a place. -/
def erase : Tree → List String → Tree
  | tree, [] => tree
  | file content, _ => file content
  | directory entries, [name] => directory (entries.filter fun entry => entry.1 != name)
  | tree, name :: rest =>
    match tree.child? name with
    | none => tree
    | some below => .directory (setEntry name (below.erase rest) tree.entries)

mutual

/-- The paths of a tree shown under `path`: a directory before what it holds. A directory whose path
does not open shows nothing of what it holds. -/
def walk (opens : Path → Bool) (path : Path) : Tree → List Path
  | file _ => [path]
  | directory entries => path :: if opens path then walkEntries opens path entries else []

@[inherit_doc walk]
def walkEntries (opens : Path → Bool) (path : Path) : List (String × Tree) → List Path
  | [] => []
  | (name, tree) :: rest => walk opens (path.join name) tree ++ walkEntries opens path rest

end

mutual

/-- The files of a tree with their places. -/
def files (place : List String) : Tree → List (List String × ByteArray)
  | file content => [(place, content)]
  | directory entries => entryFiles place entries

@[inherit_doc files]
def entryFiles (place : List String) : List (String × Tree) → List (List String × ByteArray)
  | [] => []
  | (name, tree) :: rest => files (place ++ [name]) tree ++ entryFiles place rest

end

/-- The files that are different in two trees: their content in the second, if they are in it. -/
def changes (before after : Tree) : List (List String × Option ByteArray) :=
  let old := before.files []
  let new := after.files []
  (new.filter fun (place, content) => old.lookup place != some content).map
      (fun (place, content) => (place, some content)) ++
    (old.filter fun (place, _) => (new.lookup place).isNone).map fun (place, _) => (place, none)

end Tree

end NetScribe.Files
