import Mathlib.Data.List.Infix
import NetScribe.Proofs.Expectations

/-!
# Refreshing expected outputs

A refresh goes through the fixtures below a directory and treats those that a filter picks: those
whose path, from the directory on as it was given, holds the filter (`picks_iff`). The names that
lead to a fixture are told by the place of its expected output (`names_of_place`), so no two of them
share one. If everything can be written and no directory is in the way, each fixture that is a
document passes its test afterwards, nothing but its expected outputs has changed, and a second
refresh has nothing to do (`refresh_settles_fixtures`).
-/

namespace NetScribe.Run.Fixtures

open Files (Disk Tree Fault Errand Walker IsName)

variable {path top : Path} {disk before after : Disk} {name ending : String} {document : Document}
variable {place names : List String} {stem : List Char} {entries : List (String × Tree)}

/-! ## Filters -/

theorem holds_iff {part letters : List Char} : holds part letters ↔ part <:+: letters := by
  induction letters with
  | nil => rw [holds, List.isEmpty_iff, List.infix_nil]
  | cons c letters ih =>
    rw [holds, Bool.or_eq_true, List.isPrefixOf_iff_prefix, ih, List.infix_cons_iff]

/-- **A filter picks the paths that it is part of**, wherever in them. -/
theorem picks_iff {filter : Option String} :
    picks filter path ↔ ∀ part ∈ filter, part.toList <:+: path.text.toList := by
  cases filter with
  | none => simp [picks]
  | some part => simp [picks, holds_iff]

/-! ## All fixtures below a directory -/

/-- The errand of a refresh. -/
def refreshErrand (filter : Option String) : Errand Notice where
  chosen path := isDocument path && picks filter path
  treat := refreshOne
  stops _ := false

theorem play_refreshErrand (filter : Option String) (paths : List Path) (disk : Disk) :
    (refreshErrand filter).play paths disk =
      ⟨(refreshAll paths disk).1, (refreshAll paths disk).2, false⟩ := by
  induction paths generalizing disk with
  | nil => rfl
  | cons path rest ih =>
    have hplay : (refreshErrand filter).play (path :: rest) disk =
        let report := (refreshErrand filter).play rest (refreshOne path disk).2
        { report with said := (refreshOne path disk).1 :: report.said } := rfl
    rw [hplay, ih, refreshAll_cons]

theorem isDocument_of_chosen {filter : Option String} (h : (refreshErrand filter).chosen path) :
    isDocument path := by
  change (isDocument path && picks filter path) = true at h
  exact (Bool.and_eq_true_iff.mp h).1

theorem harmless_refreshErrand (filter : Option String) :
    (refreshErrand filter).Harmless IsExpectedName before where
  chosen directory _ hname hchosen :=
    not_isExpectedName directory hname (isDocument_of_chosen hchosen)
  treat path disk hvisits hchosen hchanged := by
    change before.ChangedOnly IsExpectedName (refreshOne path disk).2
    exact changedOnly_refreshOne hvisits (isDocument_of_chosen hchosen) hchanged

/-- The fixtures below a directory that a filter picks, by the names that lead to them. -/
def pickedBelow (filter : Option String) (top : Path) (entries : List (String × Tree)) :
    List (List String) :=
  (documentsBelow top entries).filter fun names => picks filter (top.below names)

theorem mem_pickedBelow {filter : Option String} (h : (Tree.directory entries).WellFormed) :
    names ∈ pickedBelow filter top entries ↔
      (((Tree.directory entries).get? names).isSome ∧ isDocument (top.below names) ∧
        (names = [] ∨ Disk.opens (top.below names.dropLast))) ∧
      ∀ part ∈ filter, part.toList <:+: (top.below names).text.toList := by
  rw [pickedBelow, List.mem_filter, mem_documentsBelow h, picks_iff]

theorem documents_picked (filter : Option String) (top : Path) (entries : List (String × Tree)) :
    ((documentsBelow top entries).map top.below).filter (picks filter) =
      (pickedBelow filter top entries).map top.below :=
  List.filter_map

/-- **A refresh treats the fixtures that are picked**, and counts the others. -/
theorem refresh_run (filter : Option String) (h : disk.lookup? top = some (.directory entries)) :
    refreshOn top filter disk =
      let picked := pickedBelow filter top entries
      let run := refreshAll (picked.map top.below) disk
      (⟨picked.length, (documentsBelow top entries).length - picked.length, run.1⟩, run.2) := by
  unfold refreshOn refresh
  rw [Disk.bind_run, Disk.walk_run h]
  dsimp only
  rw [walk_documents, documents_picked, List.length_map, List.length_map]
  rfl

/-- A refresh while directories are listed only on the way. -/
theorem comes_refresh (filter : Option String) (hwell : before.WellFormed)
    (hopens : before.Opens top place)
    (hentries : before.tree.get? place = some (.directory entries)) :
    let run := refreshAll ((pickedBelow filter top entries).map top.below) before
    (⟨before, [(top, .directory)], []⟩ : Walker Notice).Comes (refreshErrand filter)
      ⟨run.2, [], run.1⟩ := by
  have hcomes := (harmless_refreshErrand filter).comes_walk hwell hopens hentries
  have hchosen :
      ((Tree.directory entries).walk Disk.opens top).filter (refreshErrand filter).chosen =
        (pickedBelow filter top entries).map top.below := by
    rw [← documents_picked, ← walk_documents, List.filter_filter]
    exact List.filter_congr fun path _ => Bool.and_comm _ _
  rw [hchosen, play_refreshErrand] at hcomes
  unfold Walker.leaves at hcomes
  simpa using hcomes

/-- A second refresh finds the same fixtures, and all of them settled. -/
theorem Refreshes.refresh_again {filter : Option String} {said : List Notice}
    (hwell : before.WellFormed) (haccepted : Disk.refused? top = none)
    (hopens : before.Opens top place)
    (hentries : before.tree.get? place = some (.directory entries))
    (hlisted : ∀ path ∈ (pickedBelow filter top entries).map top.below, Listed before path)
    (h : Refreshes before ((pickedBelow filter top entries).map top.below) before said after) :
    refreshOn top filter after =
      (⟨(pickedBelow filter top entries).length,
        (documentsBelow top entries).length - (pickedBelow filter top entries).length, said⟩,
        after) := by
  have hopens' := hopens.congr h.changed.same
  obtain ⟨entries', hentries'⟩ := Tree.entryAt_eq_directory.mp hopens'.2
  have htop' := (hopens'.lookup? haccepted).trans hentries'
  have hdocuments : documentsBelow top entries' = documentsBelow top entries :=
    documentsBelow_congr (fun directory _ hname => not_isExpectedName directory hname) hwell
      h.changed hentries hentries'
  have hpicked : pickedBelow filter top entries' = pickedBelow filter top entries := by
    rw [pickedBelow, hdocuments, pickedBelow]
  rw [refresh_run filter htop', hpicked, hdocuments]
  dsimp only
  rw [h.again hlisted]

/-! ## Where the fixtures stand -/

section

variable (hwell : before.WellFormed) (hopens : before.Opens top place)
variable (hentries : before.tree.get? place = some (.directory entries))

include hwell hopens hentries

/-- A fixture below the directory goes through the names that lead to it. -/
theorem passes_below (hne : names ≠ []) (hfound : ((Tree.directory entries).get? names).isSome)
    (hdocument : isDocument (top.below names)) :
    ∃ front stem, names = front ++ [String.ofList (stem ++ ".json".toList)] ∧ stem ≠ [] ∧
      before.Passes (top.below names) (place ++ front) (stem ++ ".json".toList) := by
  obtain ⟨front, last, rfl⟩ : ∃ front last, names = front ++ [last] :=
    ⟨_, _, (List.dropLast_concat_getLast hne).symm⟩
  obtain ⟨found, hfound⟩ := Option.isSome_iff_exists.mp hfound
  have hget : before.tree.get? (place ++ front ++ [last]) = some found := by
    rw [List.append_assoc, Tree.get?_append, hentries]
    exact hfound
  have hname := hwell.tree.isName_last hget
  have hholder := hopens.below hwell (Tree.entryAt_of_below hget)
  rw [Path.below_concat] at hdocument ⊢
  obtain ⟨stem, hstem, hletters⟩ := exists_stem (Disk.pieces_join_name _ hname) hname hdocument
  refine ⟨front, stem, ?_, hstem, hletters ▸ hholder.passes hname⟩
  rw [← hletters, String.ofList_toList]

theorem ready_below (hfound : ((Tree.directory entries).get? names).isSome)
    (hdocument : isDocument (top.below names))
    (hparsed : documentOf (top.below names) (before.readFile (top.below names)) = .ok document)
    (hvacant : ∀ ending, IsEnding ending → ∀ inner,
      before.lookup? ((top.below names).withExtension ending) ≠ some (.directory inner)) :
    ∃ front stem, names = front ++ [String.ofList (stem ++ ".json".toList)] ∧
      Ready before (top.below names) (place ++ front) stem := by
  obtain ⟨bytes, hread⟩ := exists_of_documentOf hparsed
  have hne : names ≠ [] := by
    rintro rfl
    rw [Path.below_nil] at hread
    rw [hopens.readFile (Disk.refused?_of_readFile hread)] at hread
    cases hread
  obtain ⟨front, stem, hnames, hstem, hway⟩ :=
    passes_below hwell hopens hentries hne hfound hdocument
  refine ⟨front, stem, hnames, ⟨hway, hstem, ?_⟩, hvacant⟩
  -- without its extension, such a name would be that of a directory
  rintro rfl
  obtain ⟨hup, htext⟩ := hway.opens_withExtension (by decide) (by decide) "expected.java"
  have haccepted := Disk.refused?_of_append htext (Disk.refused?_of_readFile hread)
  obtain ⟨inner, hinner⟩ := Tree.entryAt_eq_directory.mp hup.2
  exact hvacant "expected.java" (Or.inl rfl) inner ((hup.lookup? haccepted).trans hinner)

end

/-- The mode of a fixture: embed mode if the directory it stands in is named `embed`. -/
def modeBelow (top : Path) (names : List String) : Mode :=
  if names.dropLast.getLast?.or top.fileName? = some "embed" then .embed else .link

/-- The name of a directory is the last that leads to it. -/
theorem fileName?_below (hnames : ∀ name ∈ names, IsName name) :
    (top.below names).fileName? = names.getLast?.or top.fileName? := by
  cases hlast : names.getLast? with
  | none =>
    rw [List.getLast?_eq_none_iff.mp hlast]
    rfl
  | some last =>
    obtain ⟨front, rfl⟩ := List.getLast?_eq_some_iff.mp hlast
    have hname := hnames last (by simp)
    rw [Path.below_concat, Path.fileName?_of_last (Disk.pieces_join_name _ hname) hname.not_idle,
      if_neg hname.not_up, String.ofList_toList]
    rfl

theorem modeOf_below {front : List String} {last : String}
    (hnames : ∀ name ∈ front ++ [last], IsName name) :
    modeOf (top.below (front ++ [last])) = modeBelow top (front ++ [last]) := by
  have hname := hnames last (by simp)
  unfold modeOf modeBelow
  rw [Path.below_concat, Path.fileName?_parent_join _ hname.no_slash hname.not_idle,
    fileName?_below fun other hother => hnames other (List.mem_append_left _ hother),
    List.dropLast_concat]
  simp only [beq_iff_eq]

/-! ## What a refresh comes to -/

/-- A fixture that a filter picks and that is a document. -/
structure Picked (filter : Option String) (top : Path) (entries : List (String × Tree))
    (before : Disk) (names : List String) (document : Document) : Prop where
  found : ((Tree.directory entries).get? names).isSome
  isDocument : isDocument (top.below names)
  picked : ∀ part ∈ filter, part.toList <:+: (top.below names).text.toList
  document : documentOf (top.below names) (before.readFile (top.below names)) = .ok document

/-- The expected outputs of a fixture are up to date: one is there, the other is not. -/
structure UpToDate (disk : Disk) (path : Path) (name : String)
    (result : Except Failure Source) : Prop where
  program : ∀ source, result = .ok source →
    disk.readFile (expectedProgram path) = .ok source.code.toUTF8 ∧
      disk.lookup? (expectedFailure path) = none
  failure : ∀ failure, result = .error failure →
    disk.readFile (expectedFailure path) = .ok (failure.diagnostic.render .plain name).toUTF8 ∧
      disk.lookup? (expectedProgram path) = none

/-- What a refresh comes to. -/
structure Refreshed (filter : Option String) (top : Path) (entries : List (String × Tree))
    (before : Disk) (report : Report) (after : Disk) : Prop where
  /-- Each fixture that was picked has what is expected of it now. -/
  upToDate : ∀ names document, Picked filter top entries before names document →
    ∃ name, names.getLast? = some name ∧
      UpToDate after (top.below names) name
        (compile document.resources.loader { mode := modeBelow top names } document.program).result
  /-- Each passes its test. -/
  checked : ∀ names document, Picked filter top entries before names document →
    checkFixture after (top.below names)
  /-- What is different is an expected output of a fixture that was picked. -/
  changed : ∀ place, after.tree.entryAt place ≠ before.tree.entryAt place →
    ∃ names document, Picked filter top entries before names document ∧
      (before.target? (expectedProgram (top.below names)) = some place ∨
        before.target? (expectedFailure (top.below names)) = some place)
  /-- The expected outputs of a fixture that was not picked, or is no document, are as before. -/
  kept : ∀ names, names ≠ [] → ((Tree.directory entries).get? names).isSome →
    isDocument (top.below names) → (∀ document, ¬ Picked filter top entries before names document) →
    after.readFile (expectedProgram (top.below names)) =
        before.readFile (expectedProgram (top.below names)) ∧
      after.readFile (expectedFailure (top.below names)) =
        before.readFile (expectedFailure (top.below names))
  /-- A second refresh says the same and changes nothing. -/
  again : refreshOn top filter after = (report, after)
  /-- It comes to the same if directories are listed only on the way, while files are written. -/
  live : (⟨before, [(top, .directory)], []⟩ : Walker Notice).Comes (refreshErrand filter)
    ⟨after, [], report.notices⟩

/-- A directory of fixtures, in which no directory stands in the place of an expected output. -/
structure Ground (filter : Option String) (top : Path) (place : List String)
    (entries : List (String × Tree)) (before : Disk) : Prop where
  wellFormed : before.WellFormed
  opens : before.Opens top place
  holds : before.tree.get? place = some (.directory entries)
  vacant : ∀ names document, Picked filter top entries before names document →
    ∀ inner, before.lookup? (expectedProgram (top.below names)) ≠ some (.directory inner) ∧
      before.lookup? (expectedFailure (top.below names)) ≠ some (.directory inner)

theorem Ground.tree {filter : Option String} (h : Ground filter top place entries before) :
    (Tree.directory entries).WellFormed :=
  h.wellFormed.tree.of_get? h.holds

/-- The place of an expected output tells its fixture. -/
theorem names_of_place {front front' : List String} {stem' : List Char} {ending' : String}
    (hending : IsEnding ending) (hending' : IsEnding ending')
    (h : place ++ front ++ [expectedName stem ending] =
      place ++ front' ++ [expectedName stem' ending']) :
    front ++ [String.ofList (stem ++ ".json".toList)] =
      front' ++ [String.ofList (stem' ++ ".json".toList)] := by
  obtain ⟨hplace, hname⟩ := List.append_inj' h rfl
  obtain rfl := List.append_cancel_left hplace
  obtain ⟨rfl, -⟩ := expectedName_inj hending hending' (List.singleton_inj.mp hname)
  rfl

section

variable {filter : Option String} {document' : Document} {names' : List String}

theorem picked_of_owns (htree : (Tree.directory entries).WellFormed)
    (hmem : names ∈ pickedBelow filter top entries) {owned : List String}
    (howns : Owns before (top.below names) owned) :
    ∃ document, Picked filter top entries before names document := by
  obtain ⟨⟨hfound, hdocument, -⟩, hpicked⟩ := (mem_pickedBelow htree).mp hmem
  obtain ⟨document, _, hparsed, -⟩ := howns
  exact ⟨document, hfound, hdocument, hpicked, hparsed⟩

theorem Picked.mem (hwell : before.WellFormed) (hopens : before.Opens top place)
    (hentries : before.tree.get? place = some (.directory entries))
    (h : Picked filter top entries before names document) :
    names ∈ pickedBelow filter top entries := by
  obtain ⟨bytes, hread⟩ := exists_of_documentOf h.document
  have hfound : (before.tree.get? (place ++ names)).isSome := by
    rw [Tree.get?_append, hentries]
    exact h.found
  obtain ⟨front, last, rfl, hleads⟩ := Disk.leads_of_readFile hwell hopens hfound hread
  exact (mem_pickedBelow (hwell.tree.of_get? hentries)).mpr
    ⟨⟨h.found, h.isDocument, Or.inr hleads.opens_above⟩, h.picked⟩

/-- **What is different is an expected output of a fixture that was picked.** -/
theorem exists_picked_of_changed {said : List Notice} {owned : List String}
    (htree : (Tree.directory entries).WellFormed)
    (hrun : Refreshes before ((pickedBelow filter top entries).map top.below) before said after)
    (hchanged : after.tree.entryAt owned ≠ before.tree.entryAt owned) :
    ∃ names document, Picked filter top entries before names document ∧
      Owns before (top.below names) owned := by
  by_contra hnone
  refine hchanged (hrun.kept owned fun path hpath howns => hnone ?_)
  obtain ⟨names, hmem, rfl⟩ := List.mem_map.mp hpath
  obtain ⟨document, h⟩ := picked_of_owns htree hmem howns
  exact ⟨names, document, h, howns⟩

variable (hground : Ground filter top place entries before)

include hground

theorem Picked.ready (h : Picked filter top entries before names document) :
    ∃ front stem, names = front ++ [String.ofList (stem ++ ".json".toList)] ∧
      Ready before (top.below names) (place ++ front) stem := by
  refine ready_below hground.wellFormed hground.opens hground.holds h.found h.isDocument
    h.document fun ending hending inner => ?_
  rcases hending with rfl | rfl
  · exact (hground.vacant names document h inner).1
  · exact (hground.vacant names document h inner).2

/-- **No two fixtures share an expected output.** -/
theorem Picked.eq_of_owns (h : Picked filter top entries before names document)
    (h' : Picked filter top entries before names' document') {owned : List String}
    (howns : Owns before (top.below names) owned) (howns' : Owns before (top.below names') owned) :
    names = names' := by
  obtain ⟨front, stem, rfl, hready⟩ := h.ready hground
  obtain ⟨front', stem', rfl, hready'⟩ := h'.ready hground
  obtain ⟨_, ending, -, hending, htarget⟩ := howns
  obtain ⟨_, ending', -, hending', htarget'⟩ := howns'
  exact names_of_place hending hending' ((hready.eq_of_target? hending htarget).symm.trans
    (hready'.eq_of_target? hending' htarget'))

theorem listed_picked :
    ∀ path ∈ (pickedBelow filter top entries).map top.below, Listed before path := by
  intro path hpath
  obtain ⟨names, hnames, rfl⟩ := List.mem_map.mp hpath
  obtain ⟨⟨hfound, hdocument, -⟩, hpicked⟩ := (mem_pickedBelow hground.tree).mp hnames
  have hshows : before.Shows top place entries :=
    .of_get? hground.wellFormed hground.opens hground.holds
  have hvisits := visits_documents hground.wellFormed hshows _
    (List.mem_map_of_mem (List.mem_of_mem_filter hnames))
  refine ⟨hvisits.1, hdocument, fun document hparsed => ?_⟩
  have h : Picked filter top entries before names document := ⟨hfound, hdocument, hpicked, hparsed⟩
  obtain ⟨front, stem, -, hready⟩ := h.ready hground
  exact ⟨place ++ front, stem, hready⟩

theorem apart_picked : ((pickedBelow filter top entries).map top.below).Pairwise
    fun path other => ∀ owned, Owns before path owned → ¬ Owns before other owned := by
  have htree := hground.tree
  have hnodup : (pickedBelow filter top entries).Nodup :=
    (Tree.nodup_of_lex (pairwise_documentsBelow top htree)).filter _
  refine List.pairwise_map.mpr (hnodup.imp_of_mem fun {names names'} hmem hmem' hne => ?_)
  intro owned howns howns'
  obtain ⟨document, h⟩ := picked_of_owns hground.tree hmem howns
  obtain ⟨document', h'⟩ := picked_of_owns hground.tree hmem' howns'
  exact hne (h.eq_of_owns hground h' howns howns')

/-- A fixture is named by the last of its names, and has the mode of its directory. -/
theorem Picked.named (h : Picked filter top entries before names document) :
    ∃ name, names.getLast? = some name ∧ (top.below names).fileName? = some name ∧
      modeOf (top.below names) = modeBelow top names := by
  obtain ⟨front, stem, hnames, -⟩ := h.ready hground
  have hisName := hground.tree.isName_of_get? h.found
  refine ⟨String.ofList (stem ++ ".json".toList), ?_, ?_, ?_⟩
  · rw [hnames, List.getLast?_concat]
  · rw [fileName?_below hisName, hnames, List.getLast?_concat]
    rfl
  · rw [hnames] at hisName ⊢
    exact modeOf_below hisName

section

variable {said : List Notice} (hrun : Refreshes before
  ((pickedBelow filter top entries).map top.below) before said after)

include hrun

theorem Picked.upToDate (h : Picked filter top entries before names document)
    (hname : (top.below names).fileName? = some name) :
    UpToDate after (top.below names) name
      (compile document.resources.loader { mode := modeOf (top.below names) }
        document.program).result := by
  obtain ⟨front, stem, -, hready⟩ := h.ready hground
  have hmem := h.mem hground.wellFormed hground.opens hground.holds
  have hsettled := hrun.settled _ (List.mem_map_of_mem hmem) document h.document
  refine ⟨fun source hsource => ?_, fun failure hfailure => ?_⟩
  · have hexpected := expectationOf_of_ok hsource
    have hread := Settled.readFile hready hexpected hrun.changed (hexpected ▸ hsettled)
    have hlookup := Settled.lookup? hready hexpected hrun.changed (hexpected ▸ hsettled)
    dsimp only at hread hlookup
    exact ⟨hread, hlookup⟩
  · have hexpected := expectationOf_of_error hfailure
    rw [hname, Option.getD_some] at hexpected
    have hread := Settled.readFile hready hexpected hrun.changed (hexpected ▸ hsettled)
    have hlookup := Settled.lookup? hready hexpected hrun.changed (hexpected ▸ hsettled)
    dsimp only at hread hlookup
    exact ⟨hread, hlookup⟩

/-- **A fixture that was refreshed passes its test.** -/
theorem Picked.checked (h : Picked filter top entries before names document) :
    checkFixture after (top.below names) := by
  obtain ⟨name, -, hname, -⟩ := h.named hground
  have hupToDate := h.upToDate hground hrun hname
  have hmem := List.mem_map_of_mem (f := top.below)
    (h.mem hground.wellFormed hground.opens hground.holds)
  have hread := (listed_picked hground _ hmem).readFile hrun.changed
  have hdocument : documentOf (top.below names) (after.readFile (top.below names)) = .ok document :=
    hread ▸ h.document
  cases hresult : (compile document.resources.loader { mode := modeOf (top.below names) }
    document.program).result with
  | ok source =>
    rw [checkFixture_of_ok hdocument hresult, (hupToDate.program source hresult).1]
    exact agrees_toUTF8 _
  | error failure =>
    rw [checkFixture_of_error hdocument hresult, (hupToDate.failure failure hresult).1, hname]
    exact agrees_toUTF8 _

/-- **The expected outputs of other fixtures are read as before.** -/
theorem readFile_of_not_picked (hne : names ≠ [])
    (hfound : ((Tree.directory entries).get? names).isSome)
    (hdocument : isDocument (top.below names))
    (hnot : ∀ document, ¬ Picked filter top entries before names document) :
    ∀ ending, IsEnding ending → after.readFile ((top.below names).withExtension ending) =
      before.readFile ((top.below names).withExtension ending) := by
  intro ending hending
  obtain ⟨front, stem, hnames, hstem, hway⟩ :=
    passes_below hground.wellFormed hground.opens hground.holds hne hfound hdocument
  by_cases hplain : stem = ['.']
  · subst hplain
    have hopens := (hway.opens_withExtension (by decide) (by decide) ending).1
    exact hopens.readFile_congr hrun.changed.same
  · refine Stands.readFile_eq ⟨hway, hstem, hplain⟩ hending hrun.changed.same ?_
    by_contra hchanged
    obtain ⟨names', document, h, _, ending', -, hending', htarget⟩ :=
      exists_picked_of_changed hground.tree hrun hchanged
    obtain ⟨front', stem', hnames', hready⟩ := h.ready hground
    have heq := names_of_place hending hending' (hready.eq_of_target? hending' htarget)
    rw [← hnames, ← hnames'] at heq
    subst heq
    exact hnot document h

end

end

/-- **Refreshing expected outputs** leaves each fixture that it picks with what is expected of it,
touches nothing else, and has nothing left to do. -/
theorem refresh_settles_fixtures (filter : Option String) (hwell : before.WellFormed)
    (htop : before.lookup? top = some (.directory entries))
    (hwritten : ∀ notice ∈ (refreshOn top filter before).1.notices,
      notice.isUnwritten = false)
    (hvacant : ∀ names document, Picked filter top entries before names document →
      ∀ inner, before.lookup? (expectedProgram (top.below names)) ≠ some (.directory inner) ∧
        before.lookup? (expectedFailure (top.below names)) ≠ some (.directory inner)) :
    let result := refreshOn top filter before
    Refreshed filter top entries before result.1 result.2 := by
  obtain ⟨place, hopens, hentries⟩ := Disk.opens_of_lookup? htop
  have hground : Ground filter top place entries before := ⟨hwell, hopens, hentries, hvacant⟩
  have hlisted := listed_picked hground
  have hlive := comes_refresh filter hwell hopens hentries
  rw [refresh_run filter htop] at hwritten ⊢
  dsimp only at hwritten hlive ⊢
  have hrun := refreshes_of_written hlisted (apart_picked hground)
    (.refl hwell) hwritten
  generalize refreshAll ((pickedBelow filter top entries).map top.below) before = run
    at hrun hlive ⊢
  exact
    { upToDate := fun names document h => by
        obtain ⟨name, hlast, hname, hmode⟩ := h.named hground
        rw [← hmode]
        exact ⟨name, hlast, h.upToDate hground hrun hname⟩
      checked := fun names document h => h.checked hground hrun
      changed := fun owned hchanged => by
        obtain ⟨names, document, h, _, ending, -, hending, htarget⟩ :=
          exists_picked_of_changed hground.tree hrun hchanged
        refine ⟨names, document, h, ?_⟩
        rcases hending with rfl | rfl
        · exact Or.inl htarget
        · exact Or.inr htarget
      kept := fun names hne hfound hdocument hnot => by
        have hread :=
          readFile_of_not_picked hground hrun hne hfound hdocument hnot
        exact ⟨hread "expected.java" (Or.inl rfl), hread "expected.err" (Or.inr rfl)⟩
      again := hrun.refresh_again hwell (Disk.refused?_of_lookup? htop) hopens hentries hlisted
      live := hlive }

/-- One fixture with a failure that is no longer expected, one that is no document, and one in
another directory. -/
def fixtures : List (String × Tree) :=
  [("embed", .directory
      [("a.expected.err", .file "old".toUTF8),
        ("a.json", .file "\x7b\"program\":[]\x7d".toUTF8),
        ("b.expected.java", .file "old".toUTF8),
        ("b.json", .file "x".toUTF8)]),
    ("link", .directory
      [("c.expected.err", .file "old".toUTF8),
        ("c.json", .file "\x7b\"program\":[]\x7d".toUTF8)])]

def fixtureTop : Path := ⟨"/tests"⟩

def fixtureDisk : Disk :=
  { tree := .directory [("tests", .directory fixtures)] }

theorem wellFormed_fixtureDisk : fixtureDisk.WellFormed :=
  ⟨.of_check (by decide), rfl⟩

theorem lookup?_fixtureDisk : fixtureDisk.lookup? fixtureTop = some (.directory fixtures) := by
  rfl

theorem pickedBelow_fixtureDisk :
    pickedBelow (some "embed/") fixtureTop fixtures =
      [["embed", "a.json"], ["embed", "b.json"]] := by
  rfl

theorem written_fixtureDisk : ∃ notice notice',
    (refreshAll [⟨"/tests/embed/a.json"⟩, ⟨"/tests/embed/b.json"⟩]
        fixtureDisk).1 = [notice, notice'] ∧
      notice.isUnwritten = false ∧ notice'.isUnwritten = false := by
  obtain ⟨document, htext, hexpected⟩ : ∃ document,
      Document.ofText "\x7b\"program\":[]\x7d" = .ok document ∧
        expectationOf ⟨"/tests/embed/a.json"⟩ document =
          ⟨⟨"/tests/embed/a.expected.java"⟩, "",
            ⟨"/tests/embed/a.expected.err"⟩⟩ :=
    ⟨_, rfl, rfl⟩
  have hread : fixtureDisk.readFile ⟨"/tests/embed/a.json"⟩ =
      .ok "\x7b\"program\":[]\x7d".toUTF8 := rfl
  obtain ⟨written, hwrite, hread'⟩ : ∃ written,
      fixtureDisk.writeFile ⟨"/tests/embed/a.expected.java"⟩ "".toUTF8 = .ok written ∧
        (written.removeFile ⟨"/tests/embed/a.expected.err"⟩).readFile
          ⟨"/tests/embed/b.json"⟩ = .ok "x".toUTF8 :=
    ⟨_, rfl, rfl⟩
  obtain ⟨fault, hfault⟩ : ∃ fault, Document.ofText "x" = .error fault := ⟨_, rfl⟩
  have hdocument : documentOf ⟨"/tests/embed/a.json"⟩
      (fixtureDisk.readFile ⟨"/tests/embed/a.json"⟩) = .ok document := by
    rw [hread, documentOf_toUTF8, htext]
  have hunreadable : documentOf ⟨"/tests/embed/b.json"⟩
      ((written.removeFile ⟨"/tests/embed/a.expected.err"⟩).readFile
        ⟨"/tests/embed/b.json"⟩) = .error fault := by
    rw [hread', documentOf_toUTF8, hfault]
  rw [refreshAll_cons, refreshOne_of_written hdocument hexpected hwrite]
  dsimp only
  rw [refreshAll_cons, refreshOne_of_unreadable hunreadable]
  exact ⟨_, _, rfl, rfl, rfl⟩

theorem isUnwritten_fixtureDisk : ∀ notice ∈
    (refreshOn fixtureTop (some "embed/") fixtureDisk).1.notices,
    notice.isUnwritten = false := by
  obtain ⟨notice, notice', hall, hnotice, hnotice'⟩ := written_fixtureDisk
  have hpaths : [["embed", "a.json"], ["embed", "b.json"]].map fixtureTop.below =
      [⟨"/tests/embed/a.json"⟩, ⟨"/tests/embed/b.json"⟩] := rfl
  rw [refresh_run _ lookup?_fixtureDisk, pickedBelow_fixtureDisk]
  dsimp only
  rw [hpaths, hall]
  intro other hother
  rcases List.mem_pair.mp hother with rfl | rfl
  · exact hnotice
  · exact hnotice'

theorem vacant_fixtureDisk {names : List String} {document : Document}
    (h : Picked (some "embed/") fixtureTop fixtures fixtureDisk names document)
    (inner : List (String × Tree)) :
    fixtureDisk.lookup? (expectedProgram (fixtureTop.below names)) ≠ some (.directory inner) ∧
      fixtureDisk.lookup? (expectedFailure (fixtureTop.below names)) ≠
        some (.directory inner) := by
  obtain ⟨place, hopens, hentries⟩ := Disk.opens_of_lookup? lookup?_fixtureDisk
  have hmem := h.mem wellFormed_fixtureDisk hopens hentries
  rw [pickedBelow_fixtureDisk] at hmem
  rcases List.mem_pair.mp hmem with rfl | rfl
  · have hprogram :
        fixtureDisk.lookup? (expectedProgram (fixtureTop.below ["embed", "a.json"])) = none :=
      rfl
    have hfailure :
        fixtureDisk.lookup? (expectedFailure (fixtureTop.below ["embed", "a.json"])) =
          some (.file "old".toUTF8) :=
      rfl
    rw [hprogram, hfailure]
    simp
  · have hprogram :
        fixtureDisk.lookup? (expectedProgram (fixtureTop.below ["embed", "b.json"])) =
          some (.file "old".toUTF8) :=
      rfl
    have hfailure :
        fixtureDisk.lookup? (expectedFailure (fixtureTop.below ["embed", "b.json"])) = none :=
      rfl
    rw [hprogram, hfailure]
    simp

theorem picked_fixtureDisk : ∃ document,
    Picked (some "embed/") fixtureTop fixtures fixtureDisk ["embed", "a.json"] document := by
  obtain ⟨document, htext⟩ : ∃ document,
      Document.ofText "\x7b\"program\":[]\x7d" = .ok document := ⟨_, rfl⟩
  have hread : fixtureDisk.readFile (fixtureTop.below ["embed", "a.json"]) =
      .ok "\x7b\"program\":[]\x7d".toUTF8 := rfl
  refine ⟨document, rfl, rfl, picks_iff.mp rfl, ?_⟩
  rw [hread, documentOf_toUTF8, htext]

theorem not_picked_fixtureDisk (document : Document) :
    ¬ Picked (some "embed/") fixtureTop fixtures fixtureDisk ["link", "c.json"] document := by
  intro h
  have hpicks : picks (some "embed/") (fixtureTop.below ["link", "c.json"]) :=
    picks_iff.mpr h.picked
  cases hpicks

/-- The fixture that is left out keeps the failure that is not expected of it. -/
theorem refresh_settles_fixtures_embed :
    (∃ document, Picked (some "embed/") fixtureTop fixtures fixtureDisk ["embed", "a.json"]
      document) ∧
      let result := refreshOn fixtureTop (some "embed/") fixtureDisk
      Refreshed (some "embed/") fixtureTop fixtures fixtureDisk result.1 result.2 ∧
        result.2.readFile ⟨"/tests/link/c.expected.java"⟩ = .error .notFound ∧
        result.2.readFile ⟨"/tests/link/c.expected.err"⟩ = .ok "old".toUTF8 := by
  have hrefreshed := refresh_settles_fixtures (some "embed/") wellFormed_fixtureDisk
    lookup?_fixtureDisk isUnwritten_fixtureDisk fun _ _ h => vacant_fixtureDisk h
  obtain ⟨hprogram, hfailure⟩ := hrefreshed.kept ["link", "c.json"] (List.cons_ne_nil _ _) rfl rfl
    not_picked_fixtureDisk
  exact ⟨picked_fixtureDisk, hrefreshed, hprogram.trans rfl, hfailure.trans rfl⟩

end NetScribe.Run.Fixtures
