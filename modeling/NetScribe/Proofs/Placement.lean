import NetScribe.Proofs.Directories

/-!
# Where the programs of a directory go

A program is named after the first class of its document, so neither the directory of the document
nor those beside it bound where it goes. A run that is not stopped reports as many programs as its
documents give (`generated_mem_iff`), and the last one that is written at a place stays there
(`entryAt_placedBelow`). Hence no program is lost or misplaced exactly if their places are different
and beside their documents (`kept_iff`); without slashes in the names, exactly if no two documents
of one directory give the same name (`kept_iff_of_plain`). Two documents of one class show that this
can fail (`second_twin_replaces_first`).
-/

namespace NetScribe.Run

open Files (Disk Tree Entry Fault Errand IsName)

variable {settings : Settings} {directory path : Path} {entries : List (String × Tree)}
variable {before after : Disk} {place names : List String}

/-! ## One program -/

/-- What a program is named after: its first class or, if it has none, its document. -/
def programName (path : Path) (document : Document) : String :=
  document.program.primaryClass?.getD (path.stem?.getD "Program")

/-- **A document that is read is a file below the directory**, and its path leads there. -/
theorem leads_of_documentOf (hwell : before.WellFormed) (hopens : before.Opens directory place)
    (hentries : before.tree.get? place = some (.directory entries))
    (hfound : ((Tree.directory entries).get? names).isSome) {document : Document}
    (h : documentOf (directory.below names) (before.readFile (directory.below names)) =
      .ok document) :
    ∃ front last, names = front ++ [last] ∧
      before.Leads (directory.below names) (place ++ front) last := by
  obtain ⟨bytes, hread⟩ := exists_of_documentOf h
  refine Disk.leads_of_readFile hwell hopens ?_ hread
  rw [Tree.get?_append, hentries]
  exact hfound

/-- A program named by a word without a slash stands beside its document. -/
theorem target?_outputPath {holder : List String} {last : String}
    (hleads : before.Leads path holder last) (document : Document)
    (hslash : '/' ∉ (programName path document).toList) {holder' : List String} {name : String}
    (htakes : before.Takes (outputPath path document) holder' name) :
    before.target? (outputPath path document) =
      some (holder ++ [programName path document ++ ".java"]) := by
  have hname : path.fileName?.isSome := by
    obtain ⟨front, hfront, -⟩ := hleads.way
    rw [Path.fileName?_of_last hfront hleads.isName.not_idle, if_neg hleads.isName.not_up]
    rfl
  have houtput : outputPath path document =
      path.parent.join (programName path document ++ ".java") := by
    unfold outputPath Path.withFileName
    rw [if_pos hname]
    rfl
  rw [htakes.target?]
  rw [houtput] at htakes
  have hslash' : '/' ∉ (programName path document ++ ".java").toList := by
    rw [String.toList_append, List.mem_append, not_or]
    exact ⟨hslash, by decide⟩
  obtain ⟨rfl, rfl⟩ := hleads.opens_parent.eq_of_leads hslash' htakes.leads
  rfl

/-- A program that a run writes. -/
structure Placed where
  /-- The names that lead from the directory to its document. -/
  document : List String
  /-- What it is named after. -/
  name : String
  output : Path
  code : ByteArray
  /-- The place it is written to. -/
  place : List String

/-- A program is what its document gives. -/
structure Placed.IsOf (program : Placed) (settings : Settings) (before : Disk) (directory : Path) :
    Prop where
  source : ∃ document source,
    documentOf (directory.below program.document)
        (before.readFile (directory.below program.document)) = .ok document ∧
      settings.compile document = .ok source ∧
      program.name = programName (directory.below program.document) document ∧
      program.output = outputPath (directory.below program.document) document ∧
      program.code = source.code.toUTF8
  place : before.target? program.output = some program.place

/-- The program that a document gives alone. -/
def placedOf (settings : Settings) (before : Disk) (directory : Path) (names : List String) :
    Option Placed := do
  let path := directory.below names
  let document ← (documentOf path (before.readFile path)).toOption
  let file ← programOf settings before path
  let place ← before.target? file.1
  return { document := names, name := programName path document, output := file.1,
           code := file.2, place }

theorem placedOf_of_not_written
    (h : (treat settings (directory.below names) before).1.isWritten = false) :
    placedOf settings before directory names = none := by
  simp only [placedOf, programOf_of_not_written h]
  cases (documentOf (directory.below names)
    (before.readFile (directory.below names))).toOption <;> rfl

theorem placedOf_of_isWritten (hwell : before.WellFormed)
    (h : (treat settings (directory.below names) before).1.isWritten) :
    ∃ program, placedOf settings before directory names = some program ∧
      program.document = names ∧ program.IsOf settings before directory ∧
      (∃ holder name, before.Takes program.output holder name) ∧
      programOf settings before (directory.below names) = some (program.output, program.code) := by
  obtain ⟨target, holder, name, htarget, hprogram, htakes, -⟩ := exists_of_isWritten hwell h
  obtain ⟨document, hdocument, hsource, houtput⟩ := output_of_targetOf htarget
  refine ⟨⟨names, programName (directory.below names) document, target.output,
    target.source.code.toUTF8, holder ++ [name]⟩, ?_, rfl, ⟨?_, htakes.target?⟩,
    ⟨holder, name, htakes⟩, hprogram⟩
  · simp [placedOf, hdocument, hprogram, htakes.target?, Except.toOption]
  · exact ⟨document, target.source, hdocument, hsource, rfl, houtput, rfl⟩

/-! ## All programs -/

/-- The names that lead to the documents a run comes to, up to the first that stops it. -/
def treatedBelow (settings : Settings) (before : Disk) (directory : Path)
    (entries : List (String × Tree)) : List (List String) :=
  upTo (fun names => stops settings before (directory.below names))
    (documentsBelow directory entries)

/-- The programs of a directory. -/
def placedBelow (settings : Settings) (before : Disk) (directory : Path)
    (entries : List (String × Tree)) : List Placed :=
  (treatedBelow settings before directory entries).filterMap (placedOf settings before directory)

section

variable {α β : Type} {items : List α}

theorem upTo_map (f : α → β) (stops : β → Bool) (items : List α) :
    upTo stops (items.map f) = (upTo (fun item => stops (f item)) items).map f := by
  induction items with
  | nil => rfl
  | cons item rest ih =>
    rw [List.map_cons, upTo, upTo, ih]
    split <;> rfl

theorem upTo_sublist (stops : α → Bool) (items : List α) : (upTo stops items).Sublist items := by
  induction items with
  | nil => exact .slnil
  | cons item rest ih =>
    rw [upTo]
    split
    · exact (List.nil_sublist rest).cons_cons item
    · exact ih.cons_cons item

/-- In a sorted list, what comes before a stop is what comes before all of them. -/
theorem mem_upTo_iff {stops : α → Bool} {before : α → α → Prop}
    (hasymm : ∀ first second, before first second → ¬ before second first)
    (hsorted : items.Pairwise before) {item : α} (hgoes : stops item = false) :
    item ∈ upTo stops items ↔ item ∈ items ∧ ∀ other ∈ items, stops other → before item other := by
  induction items with
  | nil => simp [upTo]
  | cons first rest ih =>
    obtain ⟨hfirst, hrest⟩ := List.pairwise_cons.mp hsorted
    rw [upTo]
    cases hstops : stops first with
    | true =>
      have hne : item ≠ first := by
        rintro rfl
        rw [hgoes] at hstops
        cases hstops
      rw [if_pos rfl, List.mem_singleton]
      refine iff_of_false hne ?_
      rintro ⟨hmem, hbefore⟩
      have hbehind := hfirst item ((List.mem_cons.mp hmem).resolve_left hne)
      exact hasymm first item hbehind (hbefore first List.mem_cons_self hstops)
    | false =>
      rw [if_neg Bool.false_ne_true, List.mem_cons, ih hrest, List.mem_cons, List.forall_mem_cons,
        hstops]
      constructor
      · rintro (rfl | ⟨hmem, hbefore⟩)
        · exact ⟨Or.inl rfl, fun h => absurd h Bool.false_ne_true, fun other hother _ =>
            hfirst other hother⟩
        · exact ⟨Or.inr hmem, fun h => absurd h Bool.false_ne_true, hbefore⟩
      · rintro ⟨rfl | hmem, -, hbefore⟩
        · exact Or.inl rfl
        · exact Or.inr ⟨hmem, hbefore⟩

end

theorem stops_of_isWritten (h : (treat settings path before).1.isWritten) :
    stops settings before path = false := by
  unfold stops
  rcases treat_cases settings path before with ⟨-, htreat⟩ | ⟨_, -, htreat⟩ | ⟨_, _, -, htreat⟩ |
    ⟨_, _, -, -, htreat⟩ <;> rw [htreat] at h ⊢
  · cases h
  · rfl
  · rfl
  · rfl

theorem map_document_placedBelow (settings : Settings) (hwell : before.WellFormed)
    (directory : Path) (entries : List (String × Tree)) :
    (placedBelow settings before directory entries).map Placed.document =
      (treatedBelow settings before directory entries).filter
        fun names => (treat settings (directory.below names) before).1.isWritten := by
  rw [placedBelow, List.map_filterMap, ← List.filterMap_eq_filter]
  congr 1
  funext names
  cases hwritten : (treat settings (directory.below names) before).1.isWritten with
  | false => simp [placedOf_of_not_written hwritten, Option.guard, hwritten]
  | true =>
    obtain ⟨program, hprogram, hdocument, -⟩ := placedOf_of_isWritten hwell hwritten
    simp [hprogram, hdocument, Option.guard, hwritten]

theorem map_file_placedBelow (settings : Settings) (hwell : before.WellFormed)
    (directory : Path) (entries : List (String × Tree)) :
    (placedBelow settings before directory entries).map
        (fun program => (program.output, program.code)) =
      (upTo (stops settings before) ((documentsBelow directory entries).map
        directory.below)).filterMap (programOf settings before) := by
  rw [upTo_map, placedBelow, List.map_filterMap, List.filterMap_map]
  congr 1
  funext names
  cases hwritten : (treat settings (directory.below names) before).1.isWritten with
  | false => simp [placedOf_of_not_written hwritten, programOf_of_not_written hwritten]
  | true =>
    obtain ⟨program, hprogram, -, -, -, hfile⟩ := placedOf_of_isWritten hwell hwritten
    simp [hprogram, hfile]

theorem isOf_of_mem (hwell : before.WellFormed) {program : Placed}
    (h : program ∈ placedBelow settings before directory entries) :
    program.document ∈ documentsBelow directory entries ∧
      program.IsOf settings before directory ∧
      ∃ holder name, before.Takes program.output holder name := by
  obtain ⟨names, hnames, hprogram⟩ := List.mem_filterMap.mp h
  cases hwritten : (treat settings (directory.below names) before).1.isWritten with
  | false =>
    rw [placedOf_of_not_written hwritten] at hprogram
    cases hprogram
  | true =>
    obtain ⟨program', hprogram', hdocument, hof, htakes, -⟩ := placedOf_of_isWritten hwell hwritten
    rw [hprogram'] at hprogram
    obtain rfl := Option.some.inj hprogram
    rw [hdocument]
    exact ⟨(upTo_sublist _ _).mem hnames, hof, htakes⟩

/-- **What stands at a place in the end**: the last program that was written there, or what stood
there before. -/
theorem entryAt_placedBelow (hwell : before.WellFormed)
    (hfiles : before.writeAll
      ((upTo (stops settings before) ((documentsBelow directory entries).map
        directory.below)).filterMap (programOf settings before)) = .ok after) (spot : List String) :
    after.tree.entryAt spot =
      (((placedBelow settings before directory entries).reverse.find?
          fun program => program.place == spot).map fun program => Entry.file program.code).or
        (before.tree.entryAt spot) := by
  have hlast := Disk.entryAt_writeAll (takes_programs settings hwell _) (.refl hwell) hfiles spot
  have hplaces : ∀ program ∈ (placedBelow settings before directory entries).reverse,
      (before.target? program.output == some spot) = (program.place == spot) := by
    intro program hprogram
    rw [(isOf_of_mem hwell (List.mem_reverse.mp hprogram)).2.1.place]
    rfl
  rw [hlast, ← map_file_placedBelow settings hwell, ← List.map_reverse, List.find?_map,
    Option.map_map, ← List.head?_filter, ← List.head?_filter]
  rw [← List.filter_congr hplaces]
  rfl

/-- No program is lost or misplaced: each stands in a file of its own, beside its document, and
the file holds it in the end. -/
structure Kept (place : List String) (after : Disk) (programs : List Placed) : Prop where
  distinct : (programs.map Placed.place).Nodup
  beside : ∀ program ∈ programs, program.place.dropLast = place ++ program.document.dropLast
  whole : ∀ program ∈ programs, after.tree.entryAt program.place = some (.file program.code)

section

variable {programs : List Placed}

theorem find?_place (h : (programs.map Placed.place).Nodup) {program : Placed}
    (hprogram : program ∈ programs) :
    programs.find? (fun other => other.place == program.place) = some program := by
  induction programs with
  | nil => cases hprogram
  | cons first rest ih =>
    rw [List.map_cons, List.nodup_cons] at h
    rcases List.mem_cons.mp hprogram with rfl | hrest
    · simp
    · have hne : first.place ≠ program.place := by
        intro heq
        exact h.1 (heq ▸ List.mem_map_of_mem hrest)
      rw [List.find?_cons_of_neg (by simpa using hne)]
      exact ih h.2 hrest

/-- **What is written last is whole**, so programs are kept if their places are different and
beside their documents. -/
theorem kept_iff
    (hcontents : ∀ spot, after.tree.entryAt spot =
      ((programs.reverse.find? fun program => program.place == spot).map
        fun program => Entry.file program.code).or (before.tree.entryAt spot)) :
    Kept place after programs ↔ (programs.map Placed.place).Nodup ∧
      ∀ program ∈ programs, program.place.dropLast = place ++ program.document.dropLast := by
  constructor
  · intro h
    exact ⟨h.distinct, h.beside⟩
  · rintro ⟨hdistinct, hbeside⟩
    refine ⟨hdistinct, hbeside, fun program hprogram => ?_⟩
    have hreverse : (programs.reverse.map Placed.place).Nodup := by
      rw [List.map_reverse]
      exact (List.reverse_perm _).nodup_iff.mpr hdistinct
    rw [hcontents, find?_place hreverse (List.mem_reverse.mpr hprogram)]
    rfl

/-- Programs with plain names are kept if no two of one directory have the same name. -/
theorem kept_iff_of_plain
    (hkept : Kept place after programs ↔ (programs.map Placed.place).Nodup ∧
      ∀ program ∈ programs, program.place.dropLast = place ++ program.document.dropLast)
    (hplain : ∀ program ∈ programs,
      program.place = (place ++ program.document.dropLast) ++ [program.name ++ ".java"]) :
    Kept place after programs ↔ programs.Pairwise fun first second =>
      first.document.dropLast = second.document.dropLast → first.name ≠ second.name := by
  rw [hkept]
  have hpairs : (programs.map Placed.place).Nodup ↔ programs.Pairwise fun first second =>
      first.document.dropLast = second.document.dropLast → first.name ≠ second.name := by
    rw [List.Nodup, List.pairwise_map]
    refine List.Pairwise.iff_of_mem fun hfirst hsecond => ?_
    rw [hplain _ hfirst, hplain _ hsecond]
    constructor
    · intro hne hholder hname
      rw [hholder, hname] at hne
      exact hne rfl
    · intro himp heq
      obtain ⟨hholder, hlast⟩ := List.append_inj' heq rfl
      refine himp (List.append_cancel_left hholder) ?_
      exact (String.append_left_inj ".java").mp (List.singleton_inj.mp hlast)
  rw [hpairs, and_iff_left_iff_imp]
  intro _ program hprogram
  rw [hplain program hprogram, List.dropLast_concat]

end

/-! ## What is reported -/

theorem generated_not_mem_treat (settings : Settings) (path : Path) (disk : Disk) (count : Nat) :
    .generated count ∉ (treat settings path disk).1.notices := by
  rcases treat_cases settings path disk with ⟨-, htreat⟩ | ⟨_, -, htreat⟩ | ⟨_, _, -, htreat⟩ |
    ⟨_, _, -, -, htreat⟩ <;> rw [htreat] <;> simp [Account.notices]

theorem generated_not_mem_of_alike {first second : List Account} {count : Nat}
    (h : List.Forall₂ Account.Alike first second)
    (hfirst : .generated count ∉ first.flatMap Account.notices) :
    .generated count ∉ second.flatMap Account.notices := by
  induction h with
  | nil => exact hfirst
  | cons halike _ ih =>
    rw [List.flatMap_cons, List.mem_append, not_or] at hfirst ⊢
    refine ⟨?_, ih hfirst.2⟩
    cases halike with
    | same account => exact hfirst.1
    | unwritten log output fault fault' => simp [Account.notices]

/-- **The number that is reported** is that of the documents which alone would have been written,
unless there is none to be treated or one of them stops the run. -/
theorem generated_mem_iff {paths : List Path} {report : Errand.Report Account} {count : Nat}
    (hsaid : List.Forall₂ Account.Alike
      ((upTo (stops settings before) paths).map fun path => (treat settings path before).1)
      report.said)
    (hstopped : report.stopped = paths.any (stops settings before)) :
    .generated count ∈ (ending directory report).notices ↔
      paths.isEmpty = false ∧ paths.any (stops settings before) = false ∧
        count = paths.countP fun path => (treat settings path before).1.isWritten := by
  have hnot : .generated count ∉ report.said.flatMap Account.notices := by
    refine generated_not_mem_of_alike hsaid fun hmem => ?_
    obtain ⟨account, haccount, hnotice⟩ := List.mem_flatMap.mp hmem
    obtain ⟨path, -, rfl⟩ := List.mem_map.mp haccount
    exact generated_not_mem_treat settings path before count hnotice
  rw [ending_of_alike directory hsaid hstopped]
  generalize report.said.flatMap Account.notices = notices at hnot ⊢
  cases paths.isEmpty with
  | true => simp
  | false =>
    cases paths.any (stops settings before) with
    | true => simp [hnot]
    | false => simp [hnot]

/-! ## The run as a whole -/

/-- What becomes of the programs of a directory. -/
structure Placement (settings : Settings) (directory : Path) (place : List String)
    (entries : List (String × Tree)) (before : Disk) (programs : List Placed) (outcome : Outcome)
    (after : Disk) : Prop where
  /-- There is one program for each document that alone would have been written, unless a document
  before it stops the run. -/
  documents : ∀ names, names ∈ programs.map Placed.document ↔
    ((Tree.directory entries).get? names).isSome ∧ isDocument (directory.below names) ∧
      (treat settings (directory.below names) before).1.isWritten ∧
      ∀ other, ((Tree.directory entries).get? other).isSome → isDocument (directory.below other) →
        stops settings before (directory.below other) → List.Lex Tree.NameBefore names other
  once : (programs.map Placed.document).Nodup
  own : ∀ program ∈ programs, program.IsOf settings before directory
  /-- The number that is reported is that of the programs. -/
  counted : ∀ count, .generated count ∈ outcome.notices → count = programs.length
  reported : programs ≠ [] → outcome.code ≠ abortedCode →
    .generated programs.length ∈ outcome.notices
  /-- The last program that is written at a place stays there, and nothing else changes. -/
  contents : ∀ spot, after.tree.entryAt spot =
    ((programs.reverse.find? fun program => program.place == spot).map
      fun program => Entry.file program.code).or (before.tree.entryAt spot)
  kept_iff : Kept place after programs ↔ (programs.map Placed.place).Nodup ∧
    ∀ program ∈ programs, program.place.dropLast = place ++ program.document.dropLast
  /-- Names without slashes keep all programs if no two of one directory are the same. -/
  kept_iff_of_plain : (∀ program ∈ programs, '/' ∉ program.name.toList) →
    (Kept place after programs ↔ programs.Pairwise fun first second =>
      first.document.dropLast = second.document.dropLast → first.name ≠ second.name)

theorem place_of_plain (hwell : before.WellFormed) (hopens : before.Opens directory place)
    (hentries : before.tree.get? place = some (.directory entries)) {program : Placed}
    (hprogram : program ∈ placedBelow settings before directory entries)
    (hslash : '/' ∉ program.name.toList) :
    program.place = (place ++ program.document.dropLast) ++ [program.name ++ ".java"] := by
  obtain ⟨hdocument, hof, holder, name, htakes⟩ := isOf_of_mem hwell hprogram
  obtain ⟨hfound, -⟩ := (mem_documentsBelow (hwell.tree.of_get? hentries)).mp hdocument
  obtain ⟨document, source, hread, -, hname, houtput, -⟩ := hof.source
  obtain ⟨front, last, hnames, hleads⟩ := leads_of_documentOf hwell hopens hentries hfound hread
  rw [hname] at hslash
  rw [houtput] at htakes
  have hplace := hof.place
  rw [houtput, target?_outputPath hleads document hslash htakes, ← hname] at hplace
  rw [← Option.some.inj hplace, hnames, List.dropLast_concat]

/-- The documents that are written are those that alone would have been, before any stop. -/
theorem mem_treatedBelow_iff (hwell : before.WellFormed) (hopens : before.Opens directory place)
    (hentries : before.tree.get? place = some (.directory entries)) :
    (names ∈ treatedBelow settings before directory entries ∧
        (treat settings (directory.below names) before).1.isWritten) ↔
      ((Tree.directory entries).get? names).isSome ∧ isDocument (directory.below names) ∧
        (treat settings (directory.below names) before).1.isWritten ∧
        ∀ other, ((Tree.directory entries).get? other).isSome → isDocument (directory.below other) →
          stops settings before (directory.below other) → List.Lex Tree.NameBefore names other := by
  have htree := hwell.tree.of_get? hentries
  -- what is read stands in a directory that can be opened
  have hopened : ∀ {names : List String} {document : Document},
      ((Tree.directory entries).get? names).isSome → isDocument (directory.below names) →
      documentOf (directory.below names) (before.readFile (directory.below names)) = .ok document →
      names ∈ documentsBelow directory entries := by
    intro names document hfound hdocument hread
    obtain ⟨front, last, rfl, hleads⟩ := leads_of_documentOf hwell hopens hentries hfound hread
    exact (mem_documentsBelow htree).mpr ⟨hfound, hdocument, Or.inr hleads.opens_above⟩
  have hsorted := pairwise_documentsBelow directory htree
  constructor
  · rintro ⟨hmem, hwritten⟩
    obtain ⟨hnames, hbefore⟩ :=
      (mem_upTo_iff (fun _ _ => Tree.lex_asymm) hsorted (stops_of_isWritten hwritten)).mp hmem
    obtain ⟨hfound, hdocument, -⟩ := (mem_documentsBelow htree).mp hnames
    refine ⟨hfound, hdocument, hwritten, fun other hother hdocument' hstops => ?_⟩
    obtain ⟨document, hread, -⟩ := stops_iff.mp hstops
    exact hbefore other (hopened hother hdocument' hread) hstops
  · rintro ⟨hfound, hdocument, hwritten, hbefore⟩
    obtain ⟨target, -, -, htarget, -, -⟩ := exists_of_isWritten hwell hwritten
    obtain ⟨document, hread, -, -⟩ := output_of_targetOf htarget
    refine ⟨?_, hwritten⟩
    refine (mem_upTo_iff (fun _ _ => Tree.lex_asymm) hsorted (stops_of_isWritten hwritten)).mpr
      ⟨hopened hfound hdocument hread, fun other hother hstops => ?_⟩
    obtain ⟨hfound', hdocument', -⟩ := (mem_documentsBelow htree).mp hother
    exact hbefore other hfound' hdocument' hstops

/-- **Programs of a directory are kept or lost by their names.** -/
theorem directory_placement (settings : Settings) {directory : Path} {place : List String}
    {entries : List (String × Tree)} (hwell : before.WellFormed)
    (hplace : before.follow directory = .ok place)
    (hentries : before.tree.get? place = some (.directory entries)) (input : ByteArray) :
    ∃ programs,
      let result := (Invocation.command ⟨.path directory, settings⟩).runOn input before
      Placement settings directory place entries before programs result.1 result.2 := by
  have hlookup : before.lookup? directory = some (.directory entries) := by
    unfold Disk.lookup?
    rw [hplace]
    exact hentries
  have hopens : before.Opens directory place := Disk.opens_of_follow hplace hentries
  have hshows : before.Shows directory place entries := .of_get? hwell hopens hentries
  have htree : (Tree.directory entries).WellFormed := hwell.tree.of_get? hentries
  obtain ⟨hsaid, hstopped, hfiles⟩ :=
    play_alike settings hwell (visits_documents hwell hshows) (.refl hwell)
  rw [runOn_directory hlookup, walk_documents]
  have hcontents := entryAt_placedBelow hwell hfiles
  have hdocuments := map_document_placedBelow settings hwell directory entries
  have hlength : (documentsBelow directory entries).any
        (fun names => stops settings before (directory.below names)) = false →
      (placedBelow settings before directory entries).length =
        ((documentsBelow directory entries).map directory.below).countP
          fun path => (treat settings path before).1.isWritten := by
    intro hnone
    rw [List.countP_map, List.countP_eq_length_filter, ← List.length_map (f := Placed.document),
      hdocuments, treatedBelow, upTo_of_none hnone]
    rfl
  refine ⟨placedBelow settings before directory entries, ?_⟩
  refine
    { documents := fun names => ?_
      once := ?_
      own := fun program hprogram => (isOf_of_mem hwell hprogram).2.1
      counted := ?_
      reported := ?_
      contents := hcontents
      kept_iff := kept_iff hcontents
      kept_iff_of_plain := fun hplain =>
        kept_iff_of_plain (kept_iff hcontents) fun program hprogram =>
          place_of_plain hwell hopens hentries hprogram (hplain program hprogram) }
  · rw [hdocuments, List.mem_filter]
    exact mem_treatedBelow_iff hwell hopens hentries
  · rw [hdocuments]
    exact ((Tree.nodup_of_lex (pairwise_documentsBelow directory htree)).sublist
      (upTo_sublist _ _)).filter _
  · intro count hcount
    obtain ⟨-, hnone, hcount⟩ := (generated_mem_iff hsaid hstopped).mp hcount
    rw [List.any_map] at hnone
    rw [hcount, hlength hnone]
  · intro hne hcode
    rw [code_of_alike hsaid hstopped] at hcode
    have hnone : ((documentsBelow directory entries).map directory.below).any
        (stops settings before) = false := by
      refine Bool.eq_false_iff.mpr fun hstops => ?_
      rw [if_pos hstops] at hcode
      exact hcode rfl
    refine (generated_mem_iff hsaid hstopped).mpr ⟨?_, hnone, ?_⟩
    · obtain ⟨program, rest, hprograms⟩ := List.exists_cons_of_ne_nil hne
      have hmem := (isOf_of_mem hwell (hprograms ▸ List.mem_cons_self)).1
      exact List.isEmpty_eq_false_iff_exists_mem.mpr ⟨_, List.mem_map_of_mem hmem⟩
    · rw [List.any_map] at hnone
      exact hlength hnone

/-- Two documents of one class, in one directory. -/
def twins : List (String × Tree) :=
  [("a.json", .file
      "\x7b\"program\":[\x7b\"type\":\"class\",\"name\":\"A\"\x7d]\x7d".toUTF8),
    ("b.json", .file
      ("\x7b\"program\":[\x7b\"type\":\"comment\",\"text\":\"x\"\x7d," ++
        "\x7b\"type\":\"class\",\"name\":\"A\"\x7d]\x7d").toUTF8)]

/-- A disk with a directory of twins. -/
def twinDisk : Disk := { tree := .directory [("d", .directory twins)] }

theorem wellFormed_twinDisk : twinDisk.WellFormed :=
  ⟨.of_check (by decide), rfl⟩

theorem directory_placement_twins :
    twinDisk.WellFormed ∧ twinDisk.follow ⟨"d"⟩ = .ok ["d"] ∧
      twinDisk.tree.get? ["d"] = some (.directory twins) ∧
      ∃ programs,
        let result := (Invocation.command ⟨.path ⟨"d"⟩, {}⟩).runOn .empty twinDisk
        Placement {} ⟨"d"⟩ ["d"] twins twinDisk programs result.1 result.2 :=
  ⟨wellFormed_twinDisk, rfl, rfl, directory_placement {} wellFormed_twinDisk rfl rfl .empty⟩

/-- **The second of two twins replaces the first**: two programs are reported, and one is there. -/
theorem second_twin_replaces_first :
    let result := (Invocation.command ⟨.path ⟨"d"⟩, {}⟩).runOn .empty twinDisk
    result.1 =
        { code := 0
          notices := [.written ⟨"d/A.java"⟩ 0, .written ⟨"d/A.java"⟩ 0, .generated 2] } ∧
      (result.2.tree.files []).map Prod.fst = [["d", "A.java"], ["d", "a.json"], ["d", "b.json"]] ∧
      result.2.readFile ⟨"d/A.java"⟩ = .ok "// x\n\npublic class A \x7b\n\x7d\n".toUTF8 := by
  intro result
  let first : Source := { imports := [], body := ["", "public class A \x7b", "\x7d"] }
  let second : Source := { imports := [], body := ["// x", "", "public class A \x7b", "\x7d"] }
  let written (source : Source) : Disk :=
    { tree := .directory [("d", .directory (("A.java", .file source.code.toUTF8) :: twins))] }
  have hfirst : treat {} ⟨"d/a.json"⟩ twinDisk =
      (⟨[], .written ⟨"d/A.java"⟩ 0⟩, written first) :=
    treat_of_text first rfl (by decide +kernel) rfl
  have hsecond : treat {} ⟨"d/b.json"⟩ (written first) =
      (⟨[], .written ⟨"d/A.java"⟩ 0⟩, written second) :=
    treat_of_text second rfl (by decide +kernel) rfl
  have hplay : (errand {}).play [⟨"d/a.json"⟩, ⟨"d/b.json"⟩] twinDisk =
      ⟨[⟨[], .written ⟨"d/A.java"⟩ 0⟩, ⟨[], .written ⟨"d/A.java"⟩ 0⟩], written second, false⟩ := by
    rw [play_of_goes (by rw [hfirst]; rfl), hfirst, play_of_goes (by rw [hsecond]; rfl), hsecond]
    rfl
  have hlookup : twinDisk.lookup? ⟨"d"⟩ = some (.directory twins) := rfl
  have hresult : result = (ending ⟨"d"⟩ _, _) := runOn_directory hlookup .empty
  have hwalk : ((Tree.directory twins).walk Disk.opens ⟨"d"⟩).filter isDocument =
      [⟨"d/a.json"⟩, ⟨"d/b.json"⟩] := rfl
  rw [hresult, hwalk, hplay]
  exact ⟨rfl, rfl, rfl⟩

end NetScribe.Run
