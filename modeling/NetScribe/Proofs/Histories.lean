import Mathlib.Data.List.Induction
import NetScribe.Proofs.Spellings
import NetScribe.Resource.Store

/-!
# What a store holds after insertions

A table keeps one entry for each list of components. An insertion replaces the value of the entry
and keeps its spelling (`Table.stored?_insert`), so after a whole history an entry has the first
spelling and the latest value inserted under its components (`Table.stored?_ofHistory`), and that is
all a table holds (`Table.records`). A store is two tables: an insertion reaches the one it is meant
for, and ragged training data reaches neither.
-/

namespace NetScribe

namespace Table

variable {α : Type} {table : Table α} {entries history : List (Path × α)} {path other : Path}

/-! ## One insertion -/

/-- The first of these entries that is under a reference, however it is spelled. -/
def found (path : Path) (entries : List (Path × α)) : Option (Path × α) :=
  entries.find? fun entry => entry.1.components = path.components

theorem found_cons_of_same {value : α} (h : other.components = path.components) :
    found path ((other, value) :: entries) = some (other, value) :=
  List.find?_cons_of_pos (decide_eq_true h)

theorem found_cons_of_differ {value : α} (h : other.components ≠ path.components) :
    found path ((other, value) :: entries) = found path entries :=
  List.find?_cons_of_neg (by rw [decide_eq_true_iff]; exact h)

/-- A reference before all others is none of them. -/
theorem found_eq_none_of_before (h : ∀ entry ∈ entries, path.key < entry.1.key)
    (hsame : path.components = other.components) : found other entries = none := by
  rw [found, List.find?_eq_none]
  intro entry hentry heq
  have hkey : entry.1.key = path.key := by
    rw [Path.key_eq_iff, hsame]
    exact of_decide_eq_true heq
  exact List.lt_irrefl _ (hkey ▸ h entry hentry)

/-- **What one insertion does to sorted entries.** Under the components of the new reference stands
the new value, with the spelling that was there if there was one; nothing else changes. -/
theorem found_insertEntry (value : α) (hsorted : entries.Pairwise fun a b => a.1.key < b.1.key) :
    found other (insertEntry path value entries) =
      if path.components = other.components then
        some (((found other entries).map Prod.fst).getD path, value)
      else found other entries := by
  induction entries with
  | nil =>
    by_cases hsame : path.components = other.components
    · rw [if_pos hsame]
      exact found_cons_of_same hsame
    · rw [if_neg hsame]
      exact found_cons_of_differ hsame
  | cons head rest ih =>
    obtain ⟨spelling, old⟩ := head
    obtain ⟨habove, hrest⟩ := List.pairwise_cons.mp hsorted
    unfold insertEntry
    split
    next hbefore =>
      -- the new entry goes in front, so the entries here are all behind its components
      by_cases hsame : path.components = other.components
      · have hnone : found other ((spelling, old) :: rest) = none := by
          refine found_eq_none_of_before (fun entry hentry => ?_) hsame
          rcases List.mem_cons.mp hentry with rfl | hentry
          · exact hbefore
          · exact List.lt_trans hbefore (habove entry hentry)
        rw [if_pos hsame, hnone]
        exact found_cons_of_same hsame
      · rw [if_neg hsame]
        exact found_cons_of_differ hsame
    next hnotBefore =>
      split
      next hafter =>
        by_cases hhead : spelling.components = other.components
        · have hdiffer : path.components ≠ other.components := by
            intro hsame
            rw [Path.key_eq_iff.mpr (hhead.trans hsame.symm)] at hafter
            exact List.lt_irrefl _ hafter
          rw [if_neg hdiffer, found_cons_of_same hhead, found_cons_of_same hhead]
        · rw [found_cons_of_differ hhead, found_cons_of_differ hhead, ih hrest]
      next hnotAfter =>
        -- neither before nor after: the same components, and the head keeps its spelling
        have hhead : spelling.components = path.components := by
          rw [← Path.key_eq_iff]
          rcases List.le_iff_lt_or_eq.mp (List.not_lt.mp hnotBefore) with hlt | heq
          · exact absurd hlt hnotAfter
          · exact heq
        by_cases hsame : path.components = other.components
        · rw [if_pos hsame, found_cons_of_same (hhead.trans hsame),
            found_cons_of_same (hhead.trans hsame)]
          rfl
        · have hdiffer : spelling.components ≠ other.components := hhead ▸ hsame
          rw [if_neg hsame, found_cons_of_differ hdiffer, found_cons_of_differ hdiffer]

/-- The entry under a reference. -/
def stored? (table : Table α) (path : Path) : Option (Path × α) :=
  found path table.entries

theorem get?_eq (table : Table α) (path : Path) :
    table.get? path = (table.stored? path).map Prod.snd := rfl

theorem stored?_insert (table : Table α) (path other : Path) (value : α) :
    (table.insert path value).stored? other =
      if path.components = other.components then
        some (((table.stored? other).map Prod.fst).getD path, value)
      else table.stored? other :=
  found_insertEntry value table.sorted

/-- **An entry is what is found under its own reference.** -/
theorem mem_entries_iff {entry : Path × α} :
    entry ∈ table.entries ↔ table.stored? entry.1 = some entry := by
  constructor
  · intro hmem
    obtain ⟨before, after, hentries⟩ := List.append_of_mem hmem
    refine List.find?_eq_some_iff_append.mpr
      ⟨decide_eq_true rfl, before, after, hentries, fun earlier hearlier => ?_⟩
    have hsorted := table.sorted
    rw [hentries] at hsorted
    have hlt := (List.pairwise_append.mp hsorted).2.2 earlier hearlier entry List.mem_cons_self
    rw [Bool.not_eq_true', decide_eq_false_iff_not]
    intro hsame
    rw [Path.key_eq_iff.mpr hsame] at hlt
    exact List.lt_irrefl _ hlt
  · exact List.mem_of_find?_eq_some

/-! ## A history of insertions -/

/-- The table after more insertions, from the first to the last. -/
def insertAll (table : Table α) (insertions : List (Path × α)) : Table α :=
  insertions.foldl (fun table insertion => table.insert insertion.1 insertion.2) table

/-- The table after a history of insertions. -/
def ofHistory (history : List (Path × α)) : Table α :=
  empty.insertAll history

theorem ofHistory_append (history more : List (Path × α)) :
    ofHistory (history ++ more) = (ofHistory history).insertAll more :=
  List.foldl_append

/-- The insertions under the components of a reference, in their order. -/
def under (history : List (Path × α)) (path : Path) : List (Path × α) :=
  history.filter fun insertion => insertion.1.components = path.components

/-- **After a history an entry has the first spelling and the latest value** of the insertions under
its components. -/
theorem stored?_ofHistory (history : List (Path × α)) (path : Path) :
    (ofHistory history).stored? path =
      (under history path).head?.bind fun first =>
        (under history path).getLast?.map fun latest => (first.1, latest.2) := by
  induction history using List.reverseRecOn with
  | nil => rfl
  | append_singleton history insertion ih =>
    -- by the last insertion: under the components asked for it is the new latest, or not counted
    rw [ofHistory_append]
    change ((ofHistory history).insert insertion.1 insertion.2).stored? path = _
    rw [stored?_insert, ih]
    by_cases hsame : insertion.1.components = path.components
    · have hunder : under (history ++ [insertion]) path = under history path ++ [insertion] := by
        simp [under, hsame]
      rw [if_pos hsame, hunder, List.getLast?_concat]
      cases under history path with
      | nil => rfl
      | cons first rest => simp [List.getLast?_cons]
    · have hunder : under (history ++ [insertion]) path = under history path := by
        simp [under, hsame]
      rw [if_neg hsame, hunder]

theorem get?_ofHistory (history : List (Path × α)) (path : Path) :
    (ofHistory history).get? path = (under history path).getLast?.map Prod.snd := by
  rw [get?_eq, stored?_ofHistory]
  cases under history path with
  | nil => rfl
  | cons first rest => simp [List.getLast?_cons]

/-- A table is what a history of insertions makes of it: in order, one entry for each list of
components, with the first spelling and the latest value inserted under them, and no other
entries. -/
structure Records (table : Table α) (history : List (Path × α)) : Prop where
  ordered : table.entries.Pairwise fun a b => a.1.Before b.1
  distinct : (table.entries.map fun entry => entry.1.components).Nodup
  entries : ∀ spelling value, (spelling, value) ∈ table.entries ↔
    (under history spelling).head?.map Prod.fst = some spelling ∧
      (under history spelling).getLast?.map Prod.snd = some value

theorem ordered_entries (table : Table α) :
    table.entries.Pairwise fun a b => a.1.Before b.1 :=
  table.sorted.imp Path.before_iff.mpr

theorem distinct_entries (table : Table α) :
    (table.entries.map fun entry => entry.1.components).Nodup := by
  refine List.pairwise_map.mpr (table.sorted.imp fun {a b} hlt hsame => ?_)
  rw [Path.key_eq_iff.mpr hsame] at hlt
  exact List.lt_irrefl _ hlt

/-- **A table records its history.** -/
theorem records (history : List (Path × α)) : (ofHistory history).Records history where
  ordered := ordered_entries _
  distinct := distinct_entries _
  entries spelling value := by
    rw [mem_entries_iff, stored?_ofHistory]
    cases under history spelling with
    | nil => simp
    | cons first rest => simp [List.getLast?_cons]

end Table

/-! ## The two tables of a store -/

instance (pairs : List Pair) : Decidable (Rectangular pairs) :=
  decidable_of_iff (Dataset.fault? pairs = none) Dataset.fault?_eq_none_iff

/-- Rectangular pairs are a dataset, and no others. -/
theorem Dataset.ofPairs_of_rectangular {pairs : List Pair} (h : Rectangular pairs) :
    Dataset.ofPairs pairs = .ok ⟨pairs, h⟩ := by
  have hnone := Dataset.fault?_eq_none_iff.mpr h
  unfold Dataset.ofPairs
  split
  next fault hfault =>
    rw [hnone] at hfault
    cases hfault
  next => rfl

theorem Dataset.ofPairs_of_ragged {pairs : List Pair} (h : ¬ Rectangular pairs) :
    ∃ fault, Dataset.ofPairs pairs = .error fault := by
  unfold Dataset.ofPairs
  split
  next fault _ => exact ⟨fault, rfl⟩
  next hnone => exact absurd (Dataset.fault?_eq_none_iff.mp hnone) h

/-- What is put into a store. Training data comes as pairs, which may be ragged. -/
inductive Insertion where
  | model (path : Path) (model : Model)
  | dataset (path : Path) (pairs : List Pair)

namespace Insertion

/-- The model an insertion brings. -/
def model? : Insertion → Option (Path × Model)
  | .model path brought => some (path, brought)
  | .dataset _ _ => none

/-- The training data an insertion brings, unless it is ragged. -/
def dataset? : Insertion → Option (Path × Dataset)
  | .model _ _ => none
  | .dataset path pairs => if h : Rectangular pairs then some (path, ⟨pairs, h⟩) else none

end Insertion

namespace Store

/-- Put something into a store; ragged training data is refused. -/
def insert (store : Store) : Insertion → Except LoadFault Store
  | .model path model => .ok (store.addModel path model)
  | .dataset path pairs => (Dataset.ofPairs pairs).map (store.addDataset path)

/-- The store behind an insertion: as it was if the insertion was refused. -/
def after (store : Store) (insertion : Insertion) : Store :=
  match store.insert insertion with
  | .ok store => store
  | .error _ => store

/-- The store after insertions, from the first to the last. -/
def ofHistory (history : List Insertion) : Store :=
  history.foldl after {}

theorem after_ragged (store : Store) (path : Path) {pairs : List Pair} (h : ¬ Rectangular pairs) :
    store.after (.dataset path pairs) = store := by
  obtain ⟨fault, hfault⟩ := Dataset.ofPairs_of_ragged h
  rw [after, insert, hfault]
  rfl

theorem after_dataset (store : Store) (path : Path) {pairs : List Pair} (h : Rectangular pairs) :
    store.after (.dataset path pairs) = store.addDataset path ⟨pairs, h⟩ := by
  rw [after, insert, Dataset.ofPairs_of_rectangular h]
  rfl

/-- **One insertion reaches one table.** -/
theorem after_tables (store : Store) (insertion : Insertion) :
    (store.after insertion).models = store.models.insertAll insertion.model?.toList ∧
      (store.after insertion).datasets = store.datasets.insertAll insertion.dataset?.toList := by
  cases insertion with
  | model path model => exact ⟨rfl, rfl⟩
  | dataset path pairs =>
    by_cases h : Rectangular pairs
    · rw [after_dataset store path h, Insertion.dataset?, dif_pos h]
      exact ⟨rfl, rfl⟩
    · rw [after_ragged store path h, Insertion.dataset?, dif_neg h]
      exact ⟨rfl, rfl⟩

/-- **A history fills each table with its own insertions.** -/
theorem ofHistory_tables (history : List Insertion) :
    (ofHistory history).models = .ofHistory (history.filterMap Insertion.model?) ∧
      (ofHistory history).datasets = .ofHistory (history.filterMap Insertion.dataset?) := by
  induction history using List.reverseRecOn with
  | nil => exact ⟨rfl, rfl⟩
  | append_singleton history insertion ih =>
    have hlast : ∀ {β : Type} (f : Insertion → Option β),
        (history ++ [insertion]).filterMap f = history.filterMap f ++ (f insertion).toList := by
      intro β f
      rw [List.filterMap_append]
      cases h : f insertion <;> simp [h]
    have hstep : ofHistory (history ++ [insertion]) = (ofHistory history).after insertion := by
      rw [ofHistory, List.foldl_append]
      rfl
    obtain ⟨hmodels, hdatasets⟩ := after_tables (ofHistory history) insertion
    rw [hstep, hmodels, hdatasets, ih.1, ih.2, hlast, hlast, Table.ofHistory_append,
      Table.ofHistory_append]
    exact ⟨rfl, rfl⟩

end Store

/-- **A store after any history of insertions.** A reference gives what was put in last under its
components, however it is spelled, and a fault with its own spelling if nothing was. Each table
records the insertions that are meant for it and no others: in order, one entry for each list of
components, under the first spelling. Ragged training data is refused and leaves the store as it
was. -/
theorem store_records_history (history : List Insertion) :
    let store := Store.ofHistory history
    let models := history.filterMap Insertion.model?
    let datasets := history.filterMap Insertion.dataset?
    (∀ path, store.loadModel path =
      match (Table.under models path).getLast? with
      | some latest => .ok latest.2
      | none => .error (.unknownModel path)) ∧
    (∀ path, store.loadDataset path =
      match (Table.under datasets path).getLast? with
      | some latest => .ok latest.2
      | none => .error (.unknownDataset path)) ∧
    store.models.Records models ∧ store.datasets.Records datasets ∧
    (∀ other : List Insertion,
      (other.filterMap Insertion.model? = models →
        (Store.ofHistory other).models = store.models) ∧
      (other.filterMap Insertion.dataset? = datasets →
        (Store.ofHistory other).datasets = store.datasets)) ∧
    ∀ path pairs,
      ((∃ fault, store.insert (.dataset path pairs) = .error fault) ↔ ¬ Rectangular pairs) ∧
      (¬ Rectangular pairs → Store.ofHistory (history ++ [.dataset path pairs]) = store) := by
  intro store models datasets
  obtain ⟨hmodels, hdatasets⟩ := Store.ofHistory_tables history
  refine ⟨fun path => ?_, fun path => ?_, ?_, ?_, fun other => ⟨fun h => ?_, fun h => ?_⟩,
    fun path pairs => ⟨⟨?_, fun h => ?_⟩, fun h => ?_⟩⟩
  · rw [Store.loadModel, hmodels, Table.get?_ofHistory]
    cases (Table.under models path).getLast? <;> rfl
  · rw [Store.loadDataset, hdatasets, Table.get?_ofHistory]
    cases (Table.under datasets path).getLast? <;> rfl
  · rw [hmodels]
    exact Table.records models
  · rw [hdatasets]
    exact Table.records datasets
  · rw [(Store.ofHistory_tables other).1, h, hmodels]
  · rw [(Store.ofHistory_tables other).2, h, hdatasets]
  · rintro ⟨fault, hfault⟩ hrect
    rw [Store.insert, Dataset.ofPairs_of_rectangular hrect] at hfault
    cases hfault
  · obtain ⟨fault, hfault⟩ := Dataset.ofPairs_of_ragged h
    exact ⟨fault, by rw [Store.insert, hfault]; rfl⟩
  · rw [Store.ofHistory, List.foldl_append]
    exact Store.after_ragged store path h

/-- Three spellings of one reference share an entry, a leading `.` makes another, a name that only
starts like another comes behind all that is in the other, and ragged data is nowhere. -/
theorem store_records_history_spellings :
    let history : List Insertion :=
      [.model ⟨"a-b"⟩ ⟨"Name", none⟩, .model ⟨"a//b"⟩ ⟨"Early", none⟩,
       .model ⟨"./a/b"⟩ ⟨"Leading", none⟩, .dataset ⟨"a/b"⟩ [⟨[], []⟩, ⟨[default], []⟩],
       .model ⟨"a/b/"⟩ ⟨"Late", none⟩]
    let store := Store.ofHistory history
    ¬ Rectangular [⟨[], []⟩, ⟨[default], []⟩] ∧
      store.models.entries =
        [(⟨"./a/b"⟩, ⟨"Leading", none⟩), (⟨"a//b"⟩, ⟨"Late", none⟩), (⟨"a-b"⟩, ⟨"Name", none⟩)] ∧
      store.loadModel ⟨"a/./b"⟩ = .ok ⟨"Late", none⟩ ∧
      store.loadModel ⟨"a/../b"⟩ = .error (.unknownModel ⟨"a/../b"⟩) ∧
      store.loadDataset ⟨"a/b"⟩ = .error (.unknownDataset ⟨"a/b"⟩) ∧
      Store.ofHistory (history ++ [.dataset ⟨"c"⟩ [⟨[], []⟩, ⟨[default], []⟩]]) = store := by
  intro history store
  have hragged : ¬ Rectangular [⟨[], []⟩, ⟨[default], []⟩] := by decide
  obtain ⟨hmodel, hdataset, -, -, -, hrefused⟩ := store_records_history history
  exact ⟨hragged, rfl, (hmodel _).trans rfl, (hmodel _).trans rfl, (hdataset _).trans rfl,
    (hrefused _ _).2 hragged⟩

end NetScribe
