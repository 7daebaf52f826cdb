/-!
# File references

A reference is shown the way it was written and compared by its components: the text is cut at
slashes, empty pieces are dropped, and so is `.` anywhere but at the start. `key` turns components
into an order key, so that comparing references is comparing lists of numbers.
-/

namespace NetScribe

/-- A reference to a file, as written. -/
structure Path where
  text : String
  deriving DecidableEq, Inhabited, Repr

namespace Path

/-- One step of a reference. -/
inductive Component where
  /-- The slash in front of an absolute reference. -/
  | root
  /-- A leading `.` of a relative reference. -/
  | here
  /-- The enclosing directory. -/
  | up
  /-- A name. -/
  | name (letters : List Char)
  deriving DecidableEq, Inhabited

/-- The component a piece between slashes stands for, if it stands for any. -/
def Component.ofPiece? : List Char → Option Component
  | [] => none
  | ['.'] => none
  | ['.', '.'] => some .up
  | letters => some (.name letters)

/-- The components of the pieces between slashes. -/
def ofPieces (pieces : List (List Char)) : List Component :=
  pieces.filterMap Component.ofPiece?

/-- The components of a text. -/
def componentsOf : List Char → List Component
  | '/' :: rest => .root :: ofPieces (rest.splitOn '/')
  | letters =>
    match letters.splitOn '/' with
    | ['.'] :: rest => .here :: ofPieces rest
    | pieces => ofPieces pieces

/-- What a reference is compared by. -/
def components (path : Path) : List Component :=
  componentsOf path.text.toList

/-- The order of components: root, `.`, `..`, then names letter by letter. -/
def Component.key : Component → List Nat
  | .root => [0]
  | .here => [1]
  | .up => [2]
  | .name letters => 3 :: letters.map Char.toNat

/-- The order of references: component by component, a shorter one before its extensions. -/
def key (path : Path) : List (List Nat) :=
  path.components.map Component.key

/-- Different components have different keys. -/
theorem Component.key_inj {a b : Component} (h : a.key = b.key) : a = b := by
  cases a <;> cases b <;> simp [Component.key] at h ⊢
  exact (List.map_inj_right (fun x y hxy => by
    exact Char.ext (UInt32.toNat_inj.mp hxy))).mp h

/-- Two references have the same key exactly when they have the same components. -/
theorem key_eq_iff {p q : Path} : p.key = q.key ↔ p.components = q.components :=
  ⟨fun h => (List.map_inj_right fun _ _ => Component.key_inj).mp h, fun h => by rw [key, key, h]⟩

end Path

end NetScribe
