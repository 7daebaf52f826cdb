import NetScribe.Resource.Dataset

/-!
# The resource store

Models and datasets are kept in two tables, each in the order of its references. References with
the same components are the same entry: a later insertion replaces what is stored, and the first
spelling stays. `Loader` is what the rest of the library asks for resources; a store is one.
-/

namespace NetScribe

/-- References in order, each with something stored under it. -/
structure Table (α : Type) where
  entries : List (Path × α) := []
  sorted : entries.Pairwise (fun a b => a.1.key < b.1.key) := by exact List.Pairwise.nil

namespace Table

variable {α : Type}

/-- The table with nothing stored. -/
def empty : Table α := {}

instance : Inhabited (Table α) := ⟨.empty⟩

/-- The entries with a value stored under a reference. -/
def insertEntry (path : Path) (value : α) : List (Path × α) → List (Path × α)
  | [] => [(path, value)]
  | (other, old) :: rest =>
    if path.key < other.key then (path, value) :: (other, old) :: rest
    else if other.key < path.key then (other, old) :: insertEntry path value rest
    else (other, value) :: rest

/-- No reference appears but the old ones and the new one. -/
theorem mem_insertEntry {path : Path} {value : α} {entries : List (Path × α)} {e : Path × α}
    (h : e ∈ insertEntry path value entries) :
    e.1 = path ∨ ∃ e' ∈ entries, e'.1 = e.1 := by
  induction entries with
  | nil => simp [insertEntry] at h; exact Or.inl (by rw [h])
  | cons head rest ih =>
    obtain ⟨other, old⟩ := head
    unfold insertEntry at h
    split at h
    · rcases List.mem_cons.mp h with rfl | h
      · exact Or.inl rfl
      · exact Or.inr ⟨e, h, rfl⟩
    · split at h
      · rcases List.mem_cons.mp h with rfl | h
        · exact Or.inr ⟨(other, old), List.mem_cons_self, rfl⟩
        · rcases ih h with h | ⟨e', he', hk⟩
          · exact Or.inl h
          · exact Or.inr ⟨e', List.mem_cons_of_mem _ he', hk⟩
      · rcases List.mem_cons.mp h with rfl | h
        · exact Or.inr ⟨(other, old), List.mem_cons_self, rfl⟩
        · exact Or.inr ⟨e, List.mem_cons_of_mem _ h, rfl⟩

/-- Insertion keeps the order. -/
theorem sorted_insertEntry (path : Path) (value : α) {entries : List (Path × α)}
    (h : entries.Pairwise (fun a b => a.1.key < b.1.key)) :
    (insertEntry path value entries).Pairwise (fun a b => a.1.key < b.1.key) := by
  induction entries with
  | nil => simp [insertEntry]
  | cons head rest ih =>
    obtain ⟨other, old⟩ := head
    obtain ⟨above, ordered⟩ := List.pairwise_cons.mp h
    unfold insertEntry
    split
    next before =>
      refine List.pairwise_cons.mpr ⟨fun e he => ?_, h⟩
      rcases List.mem_cons.mp he with rfl | he
      · exact before
      · exact List.lt_trans before (above e he)
    next =>
      split
      next after =>
        refine List.pairwise_cons.mpr ⟨fun e he => ?_, ih ordered⟩
        rcases mem_insertEntry he with hp | ⟨e', he', hk⟩
        · rw [hp]; exact after
        · rw [← hk]; exact above e' he'
      next => exact List.pairwise_cons.mpr ⟨above, ordered⟩

/-- The table with a value stored under a reference. -/
def insert (table : Table α) (path : Path) (value : α) : Table α :=
  ⟨insertEntry path value table.entries, sorted_insertEntry path value table.sorted⟩

/-- What is stored under a reference, however it is spelled. -/
def get? (table : Table α) (path : Path) : Option α :=
  (table.entries.find? fun entry => entry.1.components = path.components).map Prod.snd

/-- How many references there are. -/
def size (table : Table α) : Nat := table.entries.length

end Table

/-- What generation asks for models and datasets. -/
structure Loader where
  model : Path → Except LoadFault Model
  dataset : Path → Except LoadFault Dataset

/-- Models and datasets under the references a program uses for them. -/
structure Store where
  models : Table Model := .empty
  datasets : Table Dataset := .empty

namespace Store

instance : Inhabited Store := ⟨{}⟩

/-- The store with one more model. -/
def addModel (store : Store) (path : Path) (model : Model) : Store :=
  { store with models := store.models.insert path model }

/-- The store with one more dataset. -/
def addDataset (store : Store) (path : Path) (dataset : Dataset) : Store :=
  { store with datasets := store.datasets.insert path dataset }

/-- The model under a reference. -/
def loadModel (store : Store) (path : Path) : Except LoadFault Model :=
  match store.models.get? path with
  | some model => .ok model
  | none => .error (.unknownModel path)

/-- The dataset under a reference. -/
def loadDataset (store : Store) (path : Path) : Except LoadFault Dataset :=
  match store.datasets.get? path with
  | some dataset => .ok dataset
  | none => .error (.unknownDataset path)

/-- A store as a loader. -/
def loader (store : Store) : Loader :=
  ⟨store.loadModel, store.loadDataset⟩

end Store

end NetScribe
