import NetScribe.Proofs.Decoding
import NetScribe.Proofs.Histories
import NetScribe.Proofs.Imports
import NetScribe.Proofs.Literals

/-!
# Rectangular training data

Pairs make a dataset if all have the widths of the first one. Otherwise the first that does not fit
is named (`FirstMisfit`), with its index, its own widths and those of the first pair. There is no
other way to a dataset, so whatever a loader gives is a rectangle: in a program with embedded
training data each of the two tables has as many rows as there are pairs, and all rows of a table
have equally many numbers (`HoldsRows`).

A document is one of the ways. The reader takes up its members in turn, and what refuses one of them
refuses the whole object for the same cause (`Steps.members_refused`); so a ragged list of pairs is
refused with its own fault, however deep in the document it stands.
-/

namespace NetScribe

open Java

/-! ## The first pair that does not fit -/

/-- The report on pairs of different widths: the smallest index of a pair that has not the widths of
the first pair, the two widths of that pair and the two of the first. -/
def FirstMisfit (pairs : List Pair) (fault : LoadFault) : Prop :=
  ∃ first index pair, pairs.head? = some first ∧ pairs[index]? = some pair ∧
    ¬ pair.SameShape first ∧
    (∀ earlier < index, ∀ fitting, pairs[earlier]? = some fitting → fitting.SameShape first) ∧
    fault = .ragged index pair.input.length pair.ideal.length
      first.input.length first.ideal.length

namespace Dataset

/-- What is found in a list of pairs, counting from some index on. -/
theorem misfit?_eq_some_iff {first : Pair} {start : Nat} {pairs : List Pair} {fault : LoadFault} :
    misfit? first start pairs = some fault ↔
      ∃ index pair, pairs[index]? = some pair ∧ ¬ pair.SameShape first ∧
        (∀ earlier < index, ∀ fitting, pairs[earlier]? = some fitting → fitting.SameShape first) ∧
        fault = .ragged (start + index) pair.input.length pair.ideal.length
          first.input.length first.ideal.length := by
  induction pairs generalizing start with
  | nil => simp [misfit?]
  | cons head rest ih =>
    rw [misfit?]
    split
    · next hfits =>
      -- an index in the rest is one less than in the list
      rw [ih]
      constructor
      · rintro ⟨index, pair, hpair, hmisfit, hearlier, rfl⟩
        refine ⟨index + 1, pair, hpair, hmisfit, fun earlier hless fitting hfitting => ?_, ?_⟩
        · cases earlier with
          | zero =>
            cases hfitting
            exact hfits
          | succ earlier => exact hearlier earlier (Nat.lt_of_succ_lt_succ hless) fitting hfitting
        · rw [Nat.add_right_comm, Nat.add_assoc]
      · rintro ⟨index, pair, hpair, hmisfit, hearlier, rfl⟩
        cases index with
        | zero =>
          cases hpair
          exact absurd hfits hmisfit
        | succ index =>
          refine ⟨index, pair, hpair, hmisfit, fun earlier hless fitting hfitting => ?_, ?_⟩
          · exact hearlier (earlier + 1) (Nat.succ_lt_succ hless) fitting hfitting
          · rw [Nat.add_right_comm, Nat.add_assoc]
    · next hmisfit =>
      constructor
      · intro hfault
        cases hfault
        exact ⟨0, head, rfl, hmisfit, fun _ hless => absurd hless (Nat.not_lt_zero _), rfl⟩
      · rintro ⟨index, pair, hpair, -, hearlier, rfl⟩
        cases index with
        | zero =>
          cases hpair
          rfl
        | succ index => exact absurd (hearlier 0 (Nat.succ_pos _) head rfl) hmisfit

theorem fault?_eq_some_iff {pairs : List Pair} {fault : LoadFault} :
    fault? pairs = some fault ↔ FirstMisfit pairs fault := by
  cases pairs with
  | nil => simp [fault?, FirstMisfit]
  | cons first rest => simp [fault?, FirstMisfit, misfit?_eq_some_iff]

/-- **Pairs are refused for the first one that does not fit.** -/
theorem ofPairs_eq_error_iff {pairs : List Pair} {fault : LoadFault} :
    ofPairs pairs = .error fault ↔ FirstMisfit pairs fault := by
  rw [← fault?_eq_some_iff]
  unfold ofPairs
  split
  · next found hfound => rw [hfound, Except.error.injEq, Option.some_inj]
  · next hnone => simp [hnone]

/-- Pairs that are accepted are the pairs of the dataset. -/
theorem ofPairs_eq_ok_iff {pairs : List Pair} {dataset : Dataset} :
    ofPairs pairs = .ok dataset ↔ dataset.pairs = pairs := by
  constructor
  · intro h
    unfold ofPairs at h
    split at h
    · cases h
    · cases h
      rfl
  · rintro rfl
    exact ofPairs_pairs dataset

theorem exists_ofPairs_iff {pairs : List Pair} :
    (∃ dataset, ofPairs pairs = .ok dataset) ↔ Rectangular pairs := by
  constructor
  · rintro ⟨dataset, h⟩
    exact ofPairs_eq_ok_iff.mp h ▸ dataset.rectangular
  · exact fun h => ⟨_, ofPairs_of_rectangular h⟩

end Dataset

/-- Pairs that are not rectangular have a first one that does not fit. -/
theorem exists_firstMisfit {pairs : List Pair} (h : ¬ Rectangular pairs) :
    ∃ fault, FirstMisfit pairs fault := by
  obtain ⟨fault, hfault⟩ := Dataset.ofPairs_of_ragged h
  exact ⟨fault, Dataset.ofPairs_eq_error_iff.mp hfault⟩

/-- A dataset has two widths. -/
theorem Dataset.exists_widths (dataset : Dataset) :
    ∃ inputs ideals, ∀ pair ∈ dataset.pairs,
      pair.input.length = inputs ∧ pair.ideal.length = ideals := by
  cases hfirst : dataset.pairs.head? with
  | none => exact ⟨0, 0, by simp [List.head?_eq_none_iff.mp hfirst]⟩
  | some first =>
    exact ⟨first.input.length, first.ideal.length,
      fun pair hpair => dataset.rectangular first hfirst pair hpair⟩

/-! ## Refused texts -/

namespace Json

variable {α β σ : Type} {reader : Reader α} {text : List Char} {cause : Cause}

/-- A reader refuses a text for a cause, whatever ends it. -/
def Refuses (reader : Reader α) (text : List Char) (cause : Cause) : Prop :=
  ∀ ⦃tail⦄, Ends tail → ∃ place, reader (text ++ tail) = .error ⟨cause, place⟩

theorem Refuses.map (h : Refuses reader text cause) (f : α → β) :
    Refuses (fun text => do
      let (a, rest) ← reader text
      .ok (f a, rest)) text cause := by
  intro tail hend
  obtain ⟨place, hplace⟩ := h hend
  exact ⟨place, by simp only [hplace, bind, Except.bind]⟩

/-- What a decoder makes of a tree is read from its text. -/
theorem Decodes.reads {decode : Json → Option α} (h : Decodes reader decode) {v : Json} {a : α}
    (hv : decode v = some a) : Reads reader v.chars a := by
  intro tail hend
  have hread := h v hend
  rw [hv] at hread
  cases hresult : reader (v.chars ++ tail) with
  | error fault =>
    rw [hresult] at hread
    cases hread
  | ok read =>
    rw [hresult] at hread
    exact congrArg _ (Option.some_inj.mp hread)

variable {member : σ → String → Reader σ} {start state : σ} {before : List (String × Json)}
variable {key : String} {v : Json}

theorem Steps.membersFrom_refused (hsteps : Steps member start before state)
    (hrefused : Refuses (member state key) (':' :: v.chars) cause) (after : List (String × Json))
    {bound : List Char} (hbound : before.length < bound.length) (tail : List Char) :
    ∃ place, membersFrom member bound false start
      (memberChars (before ++ (key, v) :: after) ++ '\x7d' :: tail) = .error ⟨cause, place⟩ := by
  induction hsteps generalizing bound with
  | nil state =>
    cases bound with
    | nil => cases hbound
    | cons _ bound =>
      obtain ⟨place, hplace⟩ := hrefused (ends_memberChars after tail)
      rw [List.cons_append] at hplace
      refine ⟨place, ?_⟩
      rw [List.nil_append, memberChars_cons_append, membersFrom, nextKey_comma]
      change (member state key (':' :: (v.chars ++ (memberChars after ++ '\x7d' :: tail))) >>=
        _) = _
      rw [hplace]
      rfl
  | @cons start next state key value rest hmember hrest ih =>
    cases bound with
    | nil => cases hbound
    | cons _ bound =>
      obtain ⟨place, hplace⟩ := ih hrefused (Nat.lt_of_succ_lt_succ hbound)
      refine ⟨place, ?_⟩
      rw [List.cons_append, memberChars_cons_append, membersFrom, nextKey_comma]
      change (member start key (':' :: value.chars ++
        (memberChars (rest ++ _ :: after) ++ '\x7d' :: tail)) >>= _) = _
      rw [hmember (ends_memberChars _ tail)]
      exact hplace

/-- **A member that is refused refuses the object**, once the members before it have been read.
What comes behind it does not matter. -/
theorem Steps.members_refused (hsteps : Steps member start before state)
    (hrefused : Refuses (member state key) (':' :: v.chars) cause) (after : List (String × Json))
    (tail : List Char) :
    ∃ place, members member start (objectBody (before ++ (key, v) :: after) ++ tail) =
      .error ⟨cause, place⟩ := by
  have hbound : before.length < (objectBody (before ++ (key, v) :: after) ++ tail).length := by
    have hlength := length_lt_objectBody (before ++ (key, v) :: after)
    simp only [List.length_append, List.length_cons] at hlength ⊢
    omega
  obtain ⟨c, rest, htext⟩ := List.exists_cons_of_length_pos (Nat.zero_lt_of_lt hbound)
  rw [htext] at hbound
  rw [members]
  nth_rewrite 1 [htext]
  rw [membersFrom_first]
  exact hsteps.membersFrom_refused hrefused after hbound tail

end Json

open Json

/-- A record is refused for what is wrong with a field of it. -/
theorem Form.refuses_object {δ α : Type} {form : Form δ α} {set : String → δ → Reader δ}
    {draft : δ} {before : List (String × Json)} {key : String} {v : Json} {cause : Cause}
    (hsteps : Steps (form.readMember set) form.empty before draft)
    (hfield : form.fields.contains key = true) (hnew : form.has draft key = false)
    (hrefused : Refuses (set key draft) v.chars cause) (after : List (String × Json)) :
    Refuses (form.read set) (Json.object (before ++ (key, v) :: after)).chars cause := by
  have hmember : Refuses (form.readMember set draft key) (':' :: v.chars) cause := by
    intro tail hend
    rw [readMember, if_pos hfield, hnew]
    exact hrefused hend
  intro tail hend
  obtain ⟨place, hplace⟩ := hsteps.members_refused hmember after tail
  refine ⟨place, ?_⟩
  rw [chars_object]
  simp only [read, List.cons_append, skipBlanks_cons (c := '\x7b') rfl, hplace, bind, Except.bind]

namespace Table

variable {α : Type} {reader : Reader α} {before : List (String × Json)} {v : Json}

/-- Entries that are read are read in turn. -/
theorem exists_steps (h : ∀ entry ∈ before, ∃ a, Reads reader entry.2.chars a) (table : Table α) :
    ∃ last, Steps (readMember reader) table before last := by
  induction before generalizing table with
  | nil => exact ⟨table, .nil table⟩
  | cons entry rest ih =>
    obtain ⟨⟨a, ha⟩, hrest⟩ := List.forall_mem_cons.mp h
    obtain ⟨last, hlast⟩ := ih hrest (table.insert ⟨entry.1⟩ a)
    exact ⟨last, .cons (ha.map fun a => table.insert ⟨entry.1⟩ a) hlast⟩

/-- Entries that are read make a table. -/
theorem exists_reads (h : ∀ entry ∈ before, ∃ a, Reads reader entry.2.chars a) :
    ∃ table, Reads (readTable reader) (Json.object before).chars table := by
  obtain ⟨table, hsteps⟩ := exists_steps h .empty
  refine ⟨table, fun tail hend => ?_⟩
  rw [chars_object]
  change (members (readMember reader) .empty (objectBody before ++ tail) >>= _) = _
  rw [hsteps.members_objectBody]
  rfl

/-- A table is refused for what is wrong with the first entry that is refused. -/
theorem refuses_object {cause : Cause} (h : ∀ entry ∈ before, ∃ a, Reads reader entry.2.chars a)
    (key : String) (hrefused : Refuses reader v.chars cause) (after : List (String × Json)) :
    Refuses (readTable reader) (Json.object (before ++ (key, v) :: after)).chars cause := by
  intro tail hend
  obtain ⟨table, hsteps⟩ := exists_steps h .empty
  have hmember : Refuses (readMember reader table key) (':' :: v.chars) cause :=
    hrefused.map fun a => table.insert ⟨key⟩ a
  obtain ⟨place, hplace⟩ := hsteps.members_refused hmember after tail
  refine ⟨place, ?_⟩
  rw [chars_object]
  change (members (readMember reader) .empty (objectBody _ ++ tail) >>= _) = _
  rw [hplace]
  rfl

end Table

/-! ## Documents with training data -/

/-- The pairs of a tree that lists them. -/
def Pair.listed? : Json → Option (List Pair) := list? Pair.decode

/-- A tree that lists pairs of one shape. -/
def ListsRectangle (v : Json) : Prop :=
  ∃ pairs, Pair.listed? v = some pairs ∧ Rectangular pairs

/-- Where not all trees list pairs of one shape, there is a first one that does not. -/
theorem exists_first_ragged {datasets : List (String × Json)}
    (h : ¬ ∀ entry ∈ datasets, ListsRectangle entry.2) :
    ∃ before key v after, datasets = before ++ (key, v) :: after ∧
      (∀ entry ∈ before, ListsRectangle entry.2) ∧ ¬ ListsRectangle v := by
  induction datasets with
  | nil => exact absurd (List.forall_mem_nil _) h
  | cons entry rest ih =>
    by_cases hentry : ListsRectangle entry.2
    · have hrest : ¬ ∀ entry ∈ rest, ListsRectangle entry.2 := fun hrest =>
        h (List.forall_mem_cons.mpr ⟨hentry, hrest⟩)
      obtain ⟨before, key, v, after, rfl, hbefore, hragged⟩ := ih hrest
      exact ⟨entry :: before, key, v, after, rfl,
        List.forall_mem_cons.mpr ⟨hentry, hbefore⟩, hragged⟩
    · exact ⟨[], entry.1, entry.2, rest, rfl, List.forall_mem_nil _, hentry⟩

/-- The tree of a store with models and training data. -/
def Store.tree (models : Json) (datasets : List (String × Json)) : Json :=
  .object [("models", models), ("datasets", .object datasets)]

/-- The tree of a document with a program, models and training data. -/
def Document.tree (program models : Json) (datasets : List (String × Json)) : Json :=
  .object [("program", program), ("resources", Store.tree models datasets)]

namespace Dataset

variable {v : Json} {pairs : List Pair}

theorem exists_reads (h : ListsRectangle v) : ∃ dataset, Reads Dataset.read v.chars dataset := by
  obtain ⟨pairs, hpairs, hrect⟩ := h
  refine ⟨⟨pairs, hrect⟩, Dataset.decodes_read.reads ?_⟩
  rw [Pair.listed?] at hpairs
  rw [decode, hpairs, Option.bind_some, ofPairs_of_rectangular hrect]
  rfl

theorem refuses_of_misfit {fault : LoadFault} (hv : Pair.listed? v = some pairs)
    (h : FirstMisfit pairs fault) : Refuses Dataset.read v.chars (.load fault) := by
  intro tail hend
  have hpairs := (decodes_readList Pair.decodes_read).reads hv hend
  refine ⟨afterMember tail, ?_⟩
  simp only [Dataset.read, hpairs, ofPairs_eq_error_iff.mpr h, bind, Except.bind]

end Dataset

namespace Document

variable {program models : Json} {datasets before after : List (String × Json)}
variable {nodes : List Node} {table : Table Model}

theorem ofText_text_of_reads {tree : Json} {document : Document}
    (h : Reads Document.readStart tree.chars document) :
    Document.ofText tree.text = .ok document := by
  have hread := h ends_nil
  rw [List.append_nil] at hread
  rw [ofText, Json.text, String.toList_ofList, readAll, hread]
  rfl

theorem ofText_text_of_refuses {tree : Json} {cause : Cause}
    (h : Refuses Document.readStart tree.chars cause) :
    ∃ line, Document.ofText tree.text = .error (.malformed cause line) := by
  obtain ⟨place, hread⟩ := h ends_nil
  rw [List.append_nil] at hread
  refine ⟨Fault.line ⟨cause, place⟩ tree.chars, ?_⟩
  rw [ofText, Json.text, String.toList_ofList, readAll, hread]
  rfl

/-- Training data that is rectangular throughout is read, and the document with it. -/
theorem exists_ofText_tree (hprogram : list? Node.decode program = some nodes)
    (hmodels : table? Model.decode models = some table)
    (h : ∀ entry ∈ datasets, ListsRectangle entry.2) :
    ∃ document, Document.ofText (tree program models datasets).text = .ok document := by
  obtain ⟨found, hfound⟩ := Table.exists_reads fun entry hentry =>
    Dataset.exists_reads (h entry hentry)
  have hmodels := ((decodes_readTable Model.decodes_read).reads hmodels).map fun table =>
    ((some table, none) : Option (Table Model) × Option (Table Dataset))
  have hdatasets := hfound.map fun found => (some table, some found)
  have hstore : Reads Store.read (Store.tree models datasets).chars ⟨table, found⟩ :=
    Form.reads_object (.cons (Form.reads_member rfl rfl hmodels)
      (.cons (Form.reads_member rfl rfl hdatasets) (.nil _))) rfl
  have hprogram := ((decodes_readList Node.decodes_read).reads hprogram).map fun nodes =>
    ((some nodes, none) : Option (List Node) × Option Store)
  have hresources := hstore.map fun store => (some nodes, some store)
  exact ⟨_, ofText_text_of_reads (Form.reads_object (.cons (Form.reads_member rfl rfl hprogram)
    (.cons (Form.reads_member rfl rfl hresources) (.nil _))) rfl)⟩

/-- **The first ragged training data is what a document is refused for.** -/
theorem ofText_tree_of_misfit {key : String} {v : Json} {pairs : List Pair} {fault : LoadFault}
    (hprogram : list? Node.decode program = some nodes)
    (hmodels : table? Model.decode models = some table)
    (hbefore : ∀ entry ∈ before, ListsRectangle entry.2)
    (hv : Pair.listed? v = some pairs) (h : FirstMisfit pairs fault) :
    ∃ line, Document.ofText (tree program models (before ++ (key, v) :: after)).text =
      .error (.malformed (.load fault) line) := by
  have hentries : ∀ entry ∈ before, ∃ a, Reads Dataset.read entry.2.chars a :=
    fun entry hentry => Dataset.exists_reads (hbefore entry hentry)
  have hmodels := ((decodes_readTable Model.decodes_read).reads hmodels).map fun table =>
    ((some table, none) : Option (Table Model) × Option (Table Dataset))
  have hrefused := Dataset.refuses_of_misfit hv h
  have hdatasets := (Table.refuses_object hentries key hrefused after).map fun found =>
    (some table, some found)
  have hstore : Refuses Store.read (Store.tree models (before ++ (key, v) :: after)).chars
      (.load fault) :=
    Form.refuses_object (.cons (Form.reads_member rfl rfl hmodels) (.nil _)) rfl rfl hdatasets []
  have hprogram := ((decodes_readList Node.decodes_read).reads hprogram).map fun nodes =>
    ((some nodes, none) : Option (List Node) × Option Store)
  have hresources := hstore.map fun store => (some nodes, some store)
  exact ofText_text_of_refuses (Form.refuses_object
    (.cons (Form.reads_member rfl rfl hprogram) (.nil _)) rfl rfl hresources [])

end Document

/-! ## Tables in a written program -/

/-- Lines that hold rows of numbers, one row in braces on each, all of one width. -/
structure HoldsRows (lines : List String) (rows : List (List Binary64)) (width : Nat) : Prop where
  count : lines.length = rows.length
  line : ∀ (i : Nat) row, rows[i]? = some row →
    lines[i]? = some ("\x7b " ++ numberList defaultPrecision row ++ " \x7d,")
  width : ∀ line ∈ lines, (numbersIn line.toList).length = width

/-- The rows of a table of numbers, if they are all of one width. -/
theorem holdsRows_map {rows : List (List Binary64)} {width : Nat}
    (h : ∀ row ∈ rows, row.length = width) :
    HoldsRows (rows.map fun row => "\x7b " ++ numberList defaultPrecision row ++ " \x7d,")
      rows width where
  count := List.length_map _
  line i row hrow := by rw [List.getElem?_map, hrow]; rfl
  width := by
    refine List.forall_mem_map.mpr fun row hrow => ?_
    rw [numbersIn_row, numerals, List.length_map, h row hrow]

variable {loader : Loader} {options : Options} {program : Program} {source : Source}

/-- Embedded training data is written as two tables, one behind the other. -/
theorem Writes.tables_within {path : NodePath} {data : Path}
    (h : Writes loader options program source) (hmode : options.mode = .embed)
    (hplace : (path, .embedTraining data) ∈ program.located) :
    ∃ dataset, loader.dataset data = .ok dataset ∧ ∃ depth,
      (Layout.table depth "INPUT_DATA" (dataset.pairs.map Pair.input) ++ [Entry.blank] ++
        Layout.table depth "IDEAL_DATA" (dataset.pairs.map Pair.ideal)).map
          (Entry.row options.width) <:+: source.body := by
  obtain ⟨dataset, hdataset⟩ : ∃ dataset, loader.dataset data = .ok dataset :=
    h.embeddable hplace hmode
  obtain ⟨depth, hpiece⟩ := Layout.ofNode_within loader options.mode 0 hplace
  refine ⟨dataset, hdataset, depth, ?_⟩
  simp only [Layout.ofNode, hmode, Layout.trainingData, hdataset] at hpiece
  rw [h.body_eq, hmode]
  exact hpiece.map _

/-- **Training data is rectangular on every way, and so is what is written of it.** Pairs are a
dataset exactly if all have the widths of the first, and are refused for the first that has not; a
dataset is what its pairs make. The reader of training data finds the same of the pairs it has read,
and a document is read exactly if all lists of pairs in it are rectangular, and else is refused for
the first that is not. Where a program is written with embedded training data, the loader has
given a dataset of some widths, and the two tables, one behind the other, hold as many rows as there
are pairs, row by row the inputs and the ideals, all rows of a table with equally many numbers. -/
theorem datasets_are_rectangles :
    (∀ pairs, (∃ dataset, Dataset.ofPairs pairs = .ok dataset) ↔ Rectangular pairs) ∧
    (∀ pairs dataset, Dataset.ofPairs pairs = .ok dataset ↔ dataset.pairs = pairs) ∧
    (∀ pairs fault, Dataset.ofPairs pairs = .error fault ↔ FirstMisfit pairs fault) ∧
    (∀ text pairs rest, readList Pair.read text = .ok (pairs, rest) →
      (∀ dataset, Dataset.read text = .ok (dataset, rest) ↔ dataset.pairs = pairs) ∧
      ∀ fault, Dataset.read text = .error ⟨.load fault, afterMember rest⟩ ↔
        FirstMisfit pairs fault) ∧
    (∀ program nodes models table datasets,
      list? Node.decode program = some nodes → table? Model.decode models = some table →
      (∀ entry ∈ datasets, ∃ pairs, Pair.listed? entry.2 = some pairs) →
      ((∃ document, Document.ofText (Document.tree program models datasets).text = .ok document) ↔
        ∀ entry ∈ datasets, ListsRectangle entry.2) ∧
      ∀ before key v after pairs fault, datasets = before ++ (key, v) :: after →
        (∀ entry ∈ before, ListsRectangle entry.2) →
        Pair.listed? v = some pairs → FirstMisfit pairs fault →
        ∃ line, Document.ofText (Document.tree program models datasets).text =
          .error (.malformed (.load fault) line)) ∧
    ∀ loader options program source, Writes loader options program source →
      options.mode = .embed →
      ∀ path data, (path, .embedTraining data) ∈ program.located →
        ∃ dataset, loader.dataset data = .ok dataset ∧ ∃ inputWidth idealWidth,
          (∀ pair ∈ dataset.pairs,
            pair.input.length = inputWidth ∧ pair.ideal.length = idealWidth) ∧
          ∃ depth inputs ideals,
            (Layout.braced depth "public static final double[][] INPUT_DATA = \x7b" inputs
              "\x7d;" ++ [Entry.blank] ++
              Layout.braced depth "public static final double[][] IDEAL_DATA = \x7b" ideals
                "\x7d;").map (Entry.row options.width) <:+: source.body ∧
            HoldsRows inputs (dataset.pairs.map Pair.input) inputWidth ∧
            HoldsRows ideals (dataset.pairs.map Pair.ideal) idealWidth := by
  refine ⟨fun _ => Dataset.exists_ofPairs_iff, fun _ _ => Dataset.ofPairs_eq_ok_iff,
    fun _ _ => Dataset.ofPairs_eq_error_iff, ?_, ?_, ?_⟩
  · intro text pairs rest hpairs
    constructor
    · intro dataset
      rw [← Dataset.ofPairs_eq_ok_iff, Dataset.read, hpairs]
      simp only [bind, Except.bind]
      cases Dataset.ofPairs pairs <;> simp
    · intro fault
      rw [← Dataset.ofPairs_eq_error_iff, Dataset.read, hpairs]
      simp only [bind, Except.bind]
      cases Dataset.ofPairs pairs <;> simp
  · intro program nodes models table datasets hprogram hmodels hlisted
    refine ⟨⟨fun hread => ?_, Document.exists_ofText_tree hprogram hmodels⟩, ?_⟩
    · -- a ragged entry would have refused the document
      obtain ⟨document, hdocument⟩ := hread
      by_contra hnot
      obtain ⟨before, key, v, after, rfl, hbefore, hragged⟩ := exists_first_ragged hnot
      obtain ⟨pairs, hpairs⟩ := hlisted (key, v) (by simp)
      obtain ⟨fault, hfault⟩ := exists_firstMisfit fun hrect => hragged ⟨pairs, hpairs, hrect⟩
      obtain ⟨line, hline⟩ :=
        Document.ofText_tree_of_misfit hprogram hmodels hbefore hpairs hfault
      rw [hdocument] at hline
      cases hline
    · rintro before key v after pairs fault rfl hbefore hv hmisfit
      exact Document.ofText_tree_of_misfit hprogram hmodels hbefore hv hmisfit
  · intro loader options program source hwrites hmode path data hplace
    obtain ⟨dataset, hdataset, depth, hpiece⟩ := hwrites.tables_within hmode hplace
    obtain ⟨inputWidth, idealWidth, hwidths⟩ := dataset.exists_widths
    refine ⟨dataset, hdataset, inputWidth, idealWidth, hwidths, depth, _, _, hpiece, ?_, ?_⟩
    · exact holdsRows_map (List.forall_mem_map.mpr fun pair hpair => (hwidths pair hpair).1)
    · exact holdsRows_map (List.forall_mem_map.mpr fun pair hpair => (hwidths pair hpair).2)

/-- The third pair does not fit, nor does the fourth; the second list of a document is the ragged
one; two pairs that fit are written as two rows of two numbers and two rows of one. -/
theorem datasets_are_rectangles_third :
    let zero : Binary64 := ⟨0⟩
    let fit : Pair := ⟨[zero, zero], [zero]⟩
    let other : Pair := ⟨[zero], [zero, zero]⟩
    let fault : LoadFault := .ragged 2 1 2 2 1
    let row := fun inputs ideals : Nat =>
      Json.object [("input", .array (List.replicate inputs (.integer 0))),
        ("ideal", .array (List.replicate ideals (.integer 0)))]
    let tree := Document.tree (.array []) (.object [])
      [("a", .array [row 2 1]), ("b", .array [row 2 1, row 2 1, row 1 2, row 1 2])]
    let loader : Loader :=
      ⟨fun path => .error (.unknownModel path), fun _ => Dataset.ofPairs [fit, fit]⟩
    let program : Program := ⟨[.classDecl "A" [.embedTraining ⟨"x.egb"⟩]]⟩
    Dataset.ofPairs [fit, fit, other, other] = .error fault ∧
      (∃ line, Document.ofText tree.text = .error (.malformed (.load fault) line)) ∧
      ∃ source, Writes loader ⟨.embed, 4⟩ program source ∧
        ∃ depth inputs ideals,
          (Layout.braced depth "public static final double[][] INPUT_DATA = \x7b" inputs "\x7d;" ++
            [Entry.blank] ++
            Layout.braced depth "public static final double[][] IDEAL_DATA = \x7b" ideals
              "\x7d;").map (Entry.row 4) <:+: source.body ∧
          HoldsRows inputs [[zero, zero], [zero, zero]] 2 ∧
          HoldsRows ideals [[zero], [zero]] 1 := by
  intro zero fit other fault row tree loader program
  obtain ⟨-, -, hrefused, -, hdocument, hwritten⟩ := datasets_are_rectangles
  have hmisfit : FirstMisfit [fit, fit, other, other] fault :=
    Dataset.fault?_eq_some_iff.mp rfl
  have hlist : ∀ entry ∈ [("a", Json.array [row 2 1]),
      ("b", .array [row 2 1, row 2 1, row 1 2, row 1 2])],
      ∃ pairs, Pair.listed? entry.2 = some pairs := by
    simp only [List.forall_mem_cons]
    exact ⟨⟨[fit], rfl⟩, ⟨[fit, fit, other, other], rfl⟩, List.forall_mem_nil _⟩
  obtain ⟨source, requests, hrun⟩ : ∃ source requests,
      compile? loader ⟨.embed, 4⟩ program = some ⟨.ok source, requests⟩ := ⟨_, _, rfl⟩
  have hwrites : Writes loader ⟨.embed, 4⟩ program source := ⟨_, Or.inr hrun, rfl⟩
  have hplace : (⟨["A", "embed_training"]⟩, .embedTraining ⟨"x.egb"⟩) ∈ program.located :=
    Program.mem_located.mpr (.inside List.mem_cons_self (.here List.mem_cons_self))
  refine ⟨(hrefused _ _).mpr hmisfit, ?_, source, hwrites, ?_⟩
  · exact (hdocument _ [] _ .empty _ rfl rfl hlist).2 [("a", _)] "b" _ [] _ fault rfl
      (List.forall_mem_singleton.mpr ⟨[fit], rfl, by decide⟩) rfl hmisfit
  · obtain ⟨dataset, hdataset, inputWidth, idealWidth, hwidths, depth, inputs, ideals, hpiece,
      hinputs, hideals⟩ := hwritten _ _ _ _ hwrites rfl _ _ hplace
    have hpairs : dataset.pairs = [fit, fit] := Dataset.ofPairs_eq_ok_iff.mp hdataset
    obtain ⟨rfl, rfl⟩ : 2 = inputWidth ∧ 1 = idealWidth := hwidths fit (by simp [hpairs])
    rw [hpairs] at hinputs hideals
    exact ⟨depth, inputs, ideals, hpiece, hinputs, hideals⟩

end NetScribe
