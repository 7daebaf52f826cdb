import NetScribe.Proofs.Directories
import NetScribe.Run.Fixtures

/-!
# Expected outputs

Beside a fixture stands what compiling it is expected to give, under the stem of its name and one of
two extensions. Whatever the fixture, refreshing it changes nothing but files with such names
(`changedOnly_refreshOne`), and no document has one (`not_isExpectedName`), so a walk through the
fixtures is not disturbed. If no directory is in the way and the expected output can be written,
that is there afterwards and the other one is not (`Ready.refreshOne`). Of fixtures that share no
expected output, each is settled in the end (`refreshes_of_written`), and what is settled stays as
it is (`Refreshes.again`).
-/

namespace NetScribe.Run.Fixtures

open Files (Disk Tree Entry Fault Errand Walker IsName)

variable {path : Path} {disk before after : Disk} {name ending : String} {document : Document}
variable {holder place : List String} {stem : List Char} {content : ByteArray}

/-! ## The test of a fixture -/

/-- White space. -/
def isBlank (c : Char) : Bool :=
  let n := c.toNat
  (0x09 ≤ n && n ≤ 0x0D) || n == 0x20 || n == 0x85 || n == 0xA0 || n == 0x1680 ||
    (0x2000 ≤ n && n ≤ 0x200A) || n == 0x2028 || n == 0x2029 || n == 0x202F || n == 0x205F ||
    n == 0x3000

/-- Letters without the white space around them. -/
def trim (letters : List Char) : List Char :=
  ((letters.dropWhile isBlank).reverse.dropWhile isBlank).reverse

/-- A file holds a text, but for white space around it. -/
def agrees (text : String) (content : Except Fault ByteArray) : Bool :=
  match Files.decode content with
  | .error _ => false
  | .ok expected => trim text.toList == trim expected.toList

/-- The test of a fixture: what its document gives is what is expected of it. -/
def checkFixture (disk : Disk) (path : Path) : Bool :=
  match documentOf path (disk.readFile path) with
  | .error _ => false
  | .ok document =>
    let mode : Mode := if path.parent.fileName? == some "embed" then .embed else .link
    match (compile document.resources.loader { mode } document.program).result with
    | .ok source => agrees source.code (disk.readFile (path.withExtension "expected.java"))
    | .error failure =>
      agrees (failure.diagnostic.render .plain (path.fileName?.getD ""))
        (disk.readFile (path.withExtension "expected.err"))

section

variable (h : documentOf path (disk.readFile path) = .ok document)

include h

theorem checkFixture_of_ok {source : Source}
    (hsource : (compile document.resources.loader { mode := modeOf path } document.program).result =
      .ok source) :
    checkFixture disk path = agrees source.code (disk.readFile (expectedProgram path)) := by
  unfold modeOf at hsource
  unfold checkFixture expectedProgram
  rw [h]
  dsimp only
  rw [hsource]

theorem checkFixture_of_error {failure : Failure}
    (hfailure : (compile document.resources.loader { mode := modeOf path }
      document.program).result = .error failure) :
    checkFixture disk path =
      agrees (failure.diagnostic.render .plain (path.fileName?.getD ""))
        (disk.readFile (expectedFailure path)) := by
  unfold modeOf at hfailure
  unfold checkFixture expectedFailure
  rw [h]
  dsimp only
  rw [hfailure]

end

theorem agrees_toUTF8 (text : String) : agrees text (.ok text.toUTF8) := by
  unfold agrees
  rw [Disk.decode_toUTF8]
  exact beq_self_eq_true _

/-! ## One fixture -/

/-- Refresh one fixture on a disk. -/
def refreshOne (path : Path) (disk : Disk) : Notice × Disk :=
  (refreshFile path : StateM Disk Notice) disk

theorem refreshOne_of_unreadable {fault : DocumentFault}
    (h : documentOf path (disk.readFile path) = .error fault) :
    refreshOne path disk = (.unreadable path fault, disk) := by
  unfold refreshOne refreshFile
  rw [Disk.bind_run, Disk.read_run, h]
  rfl

section

variable {expected : Expectation} (h : documentOf path (disk.readFile path) = .ok document)
variable (hexpected : expectationOf path document = expected)

include h hexpected

theorem refreshOne_of_written
    (hwrite : disk.writeFile expected.write expected.content.toUTF8 = .ok after) :
    refreshOne path disk = (.wrote expected.write, after.removeFile expected.remove) := by
  unfold refreshOne refreshFile
  rw [Disk.bind_run, Disk.read_run, h]
  dsimp only
  rw [hexpected]
  rw [Disk.bind_run, Disk.write_run_of_ok hwrite]
  dsimp only
  rw [Disk.bind_run, Disk.kind_run]
  cases hlookup : after.lookup? expected.remove with
  | none =>
    rw [Disk.removeFile_of_lookup? hlookup]
    rfl
  | some found => rfl

theorem refreshOne_of_unwritten {fault : Fault}
    (hwrite : disk.writeFile expected.write expected.content.toUTF8 = .error fault) :
    refreshOne path disk =
      (.writeFailed expected.write fault, disk.removeFile expected.remove) := by
  unfold refreshOne refreshFile
  rw [Disk.bind_run, Disk.read_run, h]
  dsimp only
  rw [hexpected]
  rw [Disk.bind_run, Disk.write_run_of_error hwrite]
  dsimp only
  rw [Disk.bind_run, Disk.kind_run]
  cases hlookup : disk.lookup? expected.remove with
  | none =>
    rw [Disk.removeFile_of_lookup? hlookup]
    rfl
  | some found => rfl

end

/-! ## Where expected outputs stand -/

/-- The extension of an expected output. -/
def IsEnding (ending : String) : Prop := ending = "expected.java" ∨ ending = "expected.err"

/-- The name of an expected output. -/
def expectedName (stem : List Char) (ending : String) : String :=
  String.ofList (stem ++ '.' :: ending.toList)

/-- A name that an expected output can have. -/
def IsExpectedName (name : String) : Prop :=
  ∃ stem ending, IsEnding ending ∧ name = expectedName stem ending

/-- **What is expected of a document goes to one of two extensions**, and the other is removed. -/
theorem expectationOf_paths (path : Path) (document : Document) :
    ∃ kept gone, IsEnding kept ∧ IsEnding gone ∧ kept ≠ gone ∧
      (expectationOf path document).write = path.withExtension kept ∧
      (expectationOf path document).remove = path.withExtension gone := by
  unfold expectationOf
  cases (compile document.resources.loader { mode := modeOf path } document.program).result with
  | ok source =>
    refine ⟨"expected.java", "expected.err", Or.inl rfl, Or.inr rfl, by decide, ?_⟩
    dsimp only
    exact ⟨rfl, rfl⟩
  | error failure =>
    refine ⟨"expected.err", "expected.java", Or.inr rfl, Or.inl rfl, by decide, ?_⟩
    dsimp only
    exact ⟨rfl, rfl⟩

theorem expectationOf_of_ok {source : Source}
    (h : (compile document.resources.loader { mode := modeOf path } document.program).result =
      .ok source) :
    expectationOf path document = ⟨expectedProgram path, source.code, expectedFailure path⟩ := by
  unfold expectationOf
  rw [h]

theorem expectationOf_of_error {failure : Failure}
    (h : (compile document.resources.loader { mode := modeOf path } document.program).result =
      .error failure) :
    expectationOf path document =
      ⟨expectedFailure path, failure.diagnostic.render .plain (path.fileName?.getD "unknown"),
        expectedProgram path⟩ := by
  unfold expectationOf
  rw [h]

theorem IsEnding.no_slash (h : IsEnding ending) : '/' ∉ ending.toList := by
  rcases h with rfl | rfl <;> decide

/-- A name tells its stem and its extension. -/
theorem expectedName_inj {stem' : List Char} {ending' : String} (h : IsEnding ending)
    (h' : IsEnding ending') (heq : expectedName stem ending = expectedName stem' ending') :
    stem = stem' ∧ ending = ending' := by
  have hletters : stem ++ '.' :: ending.toList = stem' ++ '.' :: ending'.toList :=
    String.ofList_inj.mp heq
  have hending : ending = ending' := by
    have hlast := congrArg List.getLast? hletters
    rcases h with rfl | rfl <;> rcases h' with rfl | rfl <;> simp at hlast ⊢
  subst hending
  exact ⟨List.append_cancel_right hletters, rfl⟩

/-- **The name of an expected output is no document's name.** -/
theorem not_isExpectedName (directory : Path) (hname : IsName name)
    (h : isDocument (directory.join name)) : ¬ IsExpectedName name := by
  obtain ⟨stem, -, hletters⟩ := exists_stem (Disk.pieces_join_name directory hname) hname h
  rintro ⟨stem', ending, hending, rfl⟩
  have hlast := congrArg List.getLast? hletters
  rw [expectedName, String.toList_ofList] at hlast
  rcases hending with rfl | rfl <;> simp at hlast

/-- A fixture stands in a directory, with a stem that its expected outputs share. -/
structure Stands (disk : Disk) (path : Path) (holder : List String) (stem : List Char) : Prop where
  way : disk.Passes path holder (stem ++ ".json".toList)
  named : stem ≠ []
  plain : stem ≠ ['.']

/-- The path of an expected output goes through the directory of its fixture. -/
theorem Stands.leads_or_lost (h : Stands disk path holder stem) (hending : IsEnding ending) :
    disk.Leads (path.withExtension ending) holder (expectedName stem ending) ∨
      disk.Lost (path.withExtension ending) := by
  have hway := h.way.withExtension h.named (by decide) (by decide) h.plain hending.no_slash
  refine hway.leads_or_lost (Path.isIdle_append_dot h.named) fun hup => ?_
  have hlength := congrArg List.length hup
  rcases hending with rfl | rfl <;> simp at hlength

/-- An expected output is written beside its fixture, if at all. -/
theorem Stands.eq_of_target? (h : Stands disk path holder stem) (hending : IsEnding ending)
    (htarget : disk.target? (path.withExtension ending) = some place) :
    place = holder ++ [expectedName stem ending] := by
  rcases h.leads_or_lost hending with hleads | hlost
  · exact Option.some.inj (htarget.symm.trans hleads.target?)
  · exact absurd htarget (by simp [hlost.target? (.refl disk)])

section

variable (h : Stands before path holder stem) (hending : IsEnding ending)
variable (hchanged : before.ChangedOnly IsExpectedName disk)

include h hending hchanged

theorem Stands.removeFile :
    before.ChangedOnly IsExpectedName (disk.removeFile (path.withExtension ending)) := by
  rcases h.leads_or_lost hending with hleads | hlost
  · exact hchanged.removeFile (hleads.congr hchanged.same) ⟨stem, ending, hending, rfl⟩
  · rwa [hlost.removeFile hchanged.same]

theorem Stands.writeFile (hwrite : disk.writeFile (path.withExtension ending) content = .ok after) :
    before.Takes (path.withExtension ending) holder (expectedName stem ending) ∧
      before.ChangedOnly IsExpectedName after ∧
      ∀ place, after.tree.entryAt place =
        if place = holder ++ [expectedName stem ending] then some (.file content)
        else disk.tree.entryAt place := by
  rcases h.leads_or_lost hending with hleads | hlost
  · have hleads' := hleads.congr hchanged.same
    have htakes : disk.Takes (path.withExtension ending) holder (expectedName stem ending) := by
      refine ⟨hleads', fun hdir => ?_⟩
      rw [hleads'.writeFile, if_pos hdir] at hwrite
      cases hwrite
    rw [htakes.writeFile] at hwrite
    obtain rfl := Except.ok.inj hwrite
    exact ⟨htakes.congr hchanged.same.symm,
      hchanged.write htakes ⟨stem, ending, hending, rfl⟩ content, htakes.entryAt content⟩
  · exact absurd hwrite (hlost.writeFile hchanged.same)

end

/-- A fixture that is a document is no directory. -/
theorem passes_of_visits (hvisits : before.Visits path) (hdocument : isDocument path)
    (hchanged : before.ChangedOnly IsExpectedName disk)
    (hparsed : documentOf path (disk.readFile path) = .ok document) :
    ∃ holder stem, before.Passes path holder (stem ++ ".json".toList) ∧ stem ≠ [] := by
  obtain ⟨bytes, hread⟩ := exists_of_documentOf hparsed
  rcases hvisits with ⟨target, hopens⟩ | ⟨directory, holder, name, hopens, hname, rfl⟩
  · rw [(hopens.congr hchanged.same).readFile (Disk.refused?_of_readFile hread)] at hread
    cases hread
  · have hpieces := Disk.pieces_join_name directory hname
    obtain ⟨stem, hstem, hletters⟩ := exists_stem hpieces hname hdocument
    exact ⟨holder, stem, hletters ▸ hopens.passes hname, hstem⟩

/-- **Refreshing changes nothing but expected outputs**, wherever a walk comes to a fixture. -/
theorem changedOnly_refreshOne (hvisits : before.Visits path) (hdocument : isDocument path)
    (hchanged : before.ChangedOnly IsExpectedName disk) :
    before.ChangedOnly IsExpectedName (refreshOne path disk).2 := by
  cases hparsed : documentOf path (disk.readFile path) with
  | error fault =>
    rw [refreshOne_of_unreadable hparsed]
    exact hchanged
  | ok document =>
    obtain ⟨kept, gone, hkept, hgone, -, hpath, hother⟩ := expectationOf_paths path document
    generalize hexpected : expectationOf path document = expected at hpath hother
    obtain ⟨holder, stem, hway, hstem⟩ := passes_of_visits hvisits hdocument hchanged hparsed
    by_cases hplain : stem = ['.']
    · -- the extensions are lost, and what is left leads back up
      subst hplain
      have hopens := fun new => (hway.opens_withExtension (by decide) (by decide) new).1
      have hkeptOpens := (hopens kept).congr hchanged.same
      obtain ⟨fault, hwrite⟩ := hkeptOpens.writeFile expected.content.toUTF8
      rw [← hpath] at hwrite
      rw [refreshOne_of_unwritten hparsed hexpected hwrite, hother,
        ((hopens gone).congr hchanged.same).removeFile]
      exact hchanged
    · have hstands : Stands before path holder stem := ⟨hway, hstem, hplain⟩
      cases hwrite : disk.writeFile expected.write expected.content.toUTF8 with
      | error fault =>
        rw [refreshOne_of_unwritten hparsed hexpected hwrite, hother]
        dsimp only
        exact hstands.removeFile hgone hchanged
      | ok written =>
        rw [refreshOne_of_written hparsed hexpected hwrite, hother]
        dsimp only
        rw [hpath] at hwrite
        exact hstands.removeFile hgone (hstands.writeFile hkept hchanged hwrite).2.1

/-- An expected output is read as before if nothing has changed in its place. -/
theorem Stands.readFile_eq (h : Stands before path holder stem) (hending : IsEnding ending)
    (hsame : before.SameDirectories after)
    (hentry : after.tree.entryAt (holder ++ [expectedName stem ending]) =
      before.tree.entryAt (holder ++ [expectedName stem ending])) :
    after.readFile (path.withExtension ending) = before.readFile (path.withExtension ending) := by
  rcases h.leads_or_lost hending with hleads | hlost
  · rw [(hleads.congr hsame).readFile, hleads.readFile, hentry]
  · exact hlost.readFile hsame

/-! ## Fixtures that are settled -/

/-- A fixture in whose expected outputs' place no directory stands. -/
structure Ready (disk : Disk) (path : Path) (holder : List String) (stem : List Char) : Prop
    extends Stands disk path holder stem where
  vacant : ∀ ending, IsEnding ending → ∀ entries,
    disk.lookup? (path.withExtension ending) ≠ some (.directory entries)

theorem Ready.takes_or_lost (h : Ready disk path holder stem) (hending : IsEnding ending) :
    disk.Takes (path.withExtension ending) holder (expectedName stem ending) ∨
      disk.Lost (path.withExtension ending) := by
  refine (h.leads_or_lost hending).imp_left fun hleads => ⟨hleads, fun hdir => ?_⟩
  obtain ⟨entries, hentries⟩ := Tree.entryAt_eq_directory.mp hdir
  exact h.vacant ending hending entries (hleads.lookup?.trans hentries)

theorem Ready.entryAt_removeFile (h : Ready before path holder stem) (hending : IsEnding ending)
    (hchanged : before.ChangedOnly IsExpectedName disk) (place : List String) :
    (disk.removeFile (path.withExtension ending)).tree.entryAt place =
      if before.target? (path.withExtension ending) = some place then none
      else disk.tree.entryAt place := by
  rcases h.takes_or_lost hending with htakes | hlost
  · rw [(htakes.congr hchanged.same).entryAt_removeFile, htakes.target?]
    exact if_congr (by rw [Option.some.injEq, eq_comm]) rfl rfl
  · rw [hlost.removeFile hchanged.same, hlost.target? (.refl before),
      if_neg (Option.some_ne_none place).symm]

/-- An expected output could not be written. -/
def Notice.isUnwritten : Notice → Bool
  | .writeFailed _ _ => true
  | _ => false

/-- What a disk shows of a fixture that was refreshed: its expected output, and not the other. -/
structure Settled (before after : Disk) (expected : Expectation) : Prop where
  written : ∃ place, before.target? expected.write = some place ∧
    after.tree.entryAt place = some (.file expected.content.toUTF8)
  removed : ∀ place, before.target? expected.remove = some place →
    after.tree.entryAt place = none

/-- **What refreshing a fixture can come to**: its expected output cannot be written, or that is
written, the other one is removed, and nothing else changes. -/
theorem Ready.refreshOne (h : Ready before path holder stem)
    (hchanged : before.ChangedOnly IsExpectedName disk)
    (hdocument : documentOf path (disk.readFile path) = .ok document) :
    (refreshOne path disk).1.isUnwritten ∨
      (refreshOne path disk).1 = .wrote (expectationOf path document).write ∧
        Settled before (refreshOne path disk).2 (expectationOf path document) ∧
        ∀ place, before.target? (expectationOf path document).write ≠ some place →
          before.target? (expectationOf path document).remove ≠ some place →
          (refreshOne path disk).2.tree.entryAt place = disk.tree.entryAt place := by
  obtain ⟨kept, gone, hkept, hgone, hne, hpath, hother⟩ := expectationOf_paths path document
  generalize hexpected : expectationOf path document = expected at *
  cases hwrite : disk.writeFile expected.write expected.content.toUTF8 with
  | error fault =>
    rw [refreshOne_of_unwritten hdocument hexpected hwrite]
    exact Or.inl rfl
  | ok written =>
    rw [refreshOne_of_written hdocument hexpected hwrite]
    rw [hpath] at hwrite
    obtain ⟨htakes, hchanged', hwritten⟩ := h.writeFile hkept hchanged hwrite
    have htarget : before.target? expected.write = some (holder ++ [expectedName stem kept]) := by
      rw [hpath, htakes.target?]
    have hseen := h.entryAt_removeFile hgone hchanged'
    rw [← hother] at hseen
    -- the one that is removed has another extension
    have hapart : before.target? expected.remove ≠ some (holder ++ [expectedName stem kept]) := by
      intro hplace
      rw [hother] at hplace
      have heq := h.eq_of_target? hgone hplace
      have hname := List.singleton_inj.mp (List.append_cancel_left heq)
      exact hne (expectedName_inj hkept hgone hname).2
    refine Or.inr ⟨rfl, ⟨⟨_, htarget, ?_⟩, fun place hplace => ?_⟩, fun place hplace hplace' => ?_⟩
    · rw [hseen, if_neg hapart, hwritten, if_pos rfl]
    · rw [hseen, if_pos hplace]
    · have hother : ¬ place = holder ++ [expectedName stem kept] :=
        fun heq => hplace (heq ▸ htarget)
      rw [hseen, if_neg hplace', hwritten, if_neg hother]

theorem Ready.takes_of_target? (h : Ready before path holder stem) (hending : IsEnding ending)
    (htarget : before.target? (path.withExtension ending) = some place) :
    before.Takes (path.withExtension ending) holder (expectedName stem ending) := by
  refine (h.takes_or_lost hending).resolve_right fun hlost => ?_
  exact absurd htarget (by simp [hlost.target? (.refl before)])

section

variable {expected : Expectation} (h : Ready before path holder stem)
variable (hexpected : expectationOf path document = expected)
variable (hchanged : before.ChangedOnly IsExpectedName after)
variable (hsettled : Settled before after expected)

include h hexpected hchanged hsettled

/-- **The expected output is read** under its path. -/
theorem Settled.readFile : after.readFile expected.write = .ok expected.content.toUTF8 := by
  obtain ⟨kept, gone, hkept, -, -, hpath, -⟩ := expectationOf_paths path document
  rw [hexpected] at hpath
  obtain ⟨place, hplace, hentry⟩ := hsettled.written
  rw [hpath] at hplace ⊢
  have htakes := h.takes_of_target? hkept hplace
  obtain rfl := h.eq_of_target? hkept hplace
  rw [(htakes.leads.congr hchanged.same).readFile, hentry]
  rfl

/-- **The other one is not found** under its path. -/
theorem Settled.lookup? : after.lookup? expected.remove = none := by
  obtain ⟨kept, gone, -, hgone, -, -, hother⟩ := expectationOf_paths path document
  have hremoved := hsettled.removed
  rw [hexpected] at hother
  rw [hother] at hremoved ⊢
  rcases h.takes_or_lost hgone with htakes | hlost
  · rw [(htakes.leads.congr hchanged.same).lookup?]
    exact Option.map_eq_none_iff.mp (hremoved _ htakes.target?)
  · exact hlost.lookup? hchanged.same

/-- **A fixture that is settled stays as it is.** -/
theorem Settled.refreshOne (hdocument : documentOf path (after.readFile path) = .ok document) :
    refreshOne path after = (.wrote expected.write, after) := by
  have hlookup := Settled.lookup? h hexpected hchanged hsettled
  obtain ⟨kept, gone, hkept, -, -, hpath, -⟩ := expectationOf_paths path document
  rw [hexpected] at hpath
  obtain ⟨place, hplace, hentry⟩ := hsettled.written
  rw [hpath] at hplace
  have htakes := (h.takes_of_target? hkept hplace).congr hchanged.same
  obtain rfl := h.eq_of_target? hkept hplace
  have hchanged' := hchanged.write htakes ⟨stem, kept, hkept, rfl⟩ expected.content.toUTF8
  -- what is written is there already
  have hsame : after.tree.put (holder ++ [expectedName stem kept])
      (.file expected.content.toUTF8) = after.tree := by
    refine hchanged'.wellFormed.tree.ext hchanged.wellFormed.tree fun place => ?_
    change (after.tree.put _ _).entryAt place = _
    rw [htakes.entryAt]
    split
    · next hplace => rw [hplace, hentry]
    · rfl
  have hwrite := htakes.writeFile expected.content.toUTF8
  rw [hsame, ← hpath] at hwrite
  rw [refreshOne_of_written hdocument hexpected hwrite, Disk.removeFile_of_lookup? hlookup]

end

/-! ## One fixture after the other -/

/-- Refresh fixtures one after the other. -/
def refreshAll (paths : List Path) (disk : Disk) : List Notice × Disk :=
  (paths.mapM refreshFile : StateM Disk (List Notice)) disk

theorem refreshAll_cons (path : Path) (rest : List Path) (disk : Disk) :
    refreshAll (path :: rest) disk =
      let first := refreshOne path disk
      let others := refreshAll rest first.2
      (first.1 :: others.1, others.2) :=
  Disk.mapM_run_cons refreshFile path rest disk

/-- A fixture that a walk comes to. If it is a document, its expected outputs can be refreshed. -/
structure Listed (before : Disk) (path : Path) : Prop where
  visits : before.Visits path
  isDocument : isDocument path
  ready : ∀ document, documentOf path (before.readFile path) = .ok document →
    ∃ holder stem, Ready before path holder stem

/-- A place of an expected output of a fixture that is a document. -/
def Owns (disk : Disk) (path : Path) (place : List String) : Prop :=
  ∃ document ending, documentOf path (disk.readFile path) = .ok document ∧ IsEnding ending ∧
    disk.target? (path.withExtension ending) = some place

theorem owns_of_write (hdocument : documentOf path (disk.readFile path) = .ok document)
    (h : disk.target? (expectationOf path document).write = some place) : Owns disk path place := by
  obtain ⟨kept, gone, hkept, -, -, hpath, -⟩ := expectationOf_paths path document
  exact ⟨document, kept, hdocument, hkept, hpath ▸ h⟩

theorem owns_of_remove (hdocument : documentOf path (disk.readFile path) = .ok document)
    (h : disk.target? (expectationOf path document).remove = some place) :
    Owns disk path place := by
  obtain ⟨kept, gone, -, hgone, -, -, hother⟩ := expectationOf_paths path document
  exact ⟨document, gone, hdocument, hgone, hother ▸ h⟩

/-- What is said of a fixture whose expected output can be written. -/
def told (disk : Disk) (path : Path) : Notice :=
  match documentOf path (disk.readFile path) with
  | .error fault => .unreadable path fault
  | .ok document => .wrote (expectationOf path document).write

theorem told_of_ok (h : documentOf path (disk.readFile path) = .ok document) :
    told disk path = .wrote (expectationOf path document).write := by
  unfold told
  rw [h]

theorem told_of_error {fault : DocumentFault}
    (h : documentOf path (disk.readFile path) = .error fault) :
    told disk path = .unreadable path fault := by
  unfold told
  rw [h]

theorem Listed.readFile (h : Listed before path)
    (hchanged : before.ChangedOnly IsExpectedName disk) :
    disk.readFile path = before.readFile path :=
  readFile_of_visits (fun directory _ hname => not_isExpectedName directory hname) hchanged h.visits
    h.isDocument

/-- What refreshing fixtures comes to, told by the disk before. -/
structure Refreshes (before : Disk) (paths : List Path) (disk : Disk) (said : List Notice)
    (after : Disk) : Prop where
  said : said = paths.map (told before)
  changed : before.ChangedOnly IsExpectedName after
  settled : ∀ path ∈ paths, ∀ document, documentOf path (before.readFile path) = .ok document →
    Settled before after (expectationOf path document)
  kept : ∀ place, (∀ path ∈ paths, ¬ Owns before path place) →
    after.tree.entryAt place = disk.tree.entryAt place

section

variable {rest : List Path} {said : List Notice} {middle : Disk}

theorem Refreshes.cons_unreadable {fault : DocumentFault}
    (h : Refreshes before rest disk said after)
    (hfault : documentOf path (before.readFile path) = .error fault) :
    Refreshes before (path :: rest) disk (.unreadable path fault :: said) after := by
  refine ⟨?_, h.changed, fun other hother document hdocument => ?_, fun place hplace => ?_⟩
  · rw [List.map_cons, told_of_error hfault, h.said]
  · rcases List.mem_cons.mp hother with rfl | hother
    · rw [hfault] at hdocument
      cases hdocument
    · exact h.settled other hother document hdocument
  · exact h.kept place fun other hother => hplace other (List.mem_cons_of_mem _ hother)

theorem Refreshes.cons_settled (h : Refreshes before rest middle said after)
    (hdocument : documentOf path (before.readFile path) = .ok document)
    (hsettled : Settled before middle (expectationOf path document))
    (hkept : ∀ place, before.target? (expectationOf path document).write ≠ some place →
      before.target? (expectationOf path document).remove ≠ some place →
      middle.tree.entryAt place = disk.tree.entryAt place)
    (hapart : ∀ other ∈ rest, ∀ place, Owns before path place → ¬ Owns before other place) :
    Refreshes before (path :: rest) disk (.wrote (expectationOf path document).write :: said)
      after := by
  -- what belongs to the first fixture is not touched any more
  have hstays : ∀ place, Owns before path place →
      after.tree.entryAt place = middle.tree.entryAt place :=
    fun place howns => h.kept place fun other hother => hapart other hother place howns
  refine ⟨?_, h.changed, fun other hother document' hdocument' => ?_, fun place hplace => ?_⟩
  · rw [List.map_cons, told_of_ok hdocument, h.said]
  · rcases List.mem_cons.mp hother with rfl | hother
    · obtain rfl : document = document' := Except.ok.inj (hdocument.symm.trans hdocument')
      obtain ⟨place, hplace, hentry⟩ := hsettled.written
      refine ⟨⟨place, hplace, ?_⟩, fun place hplace => ?_⟩
      · rw [hstays place (owns_of_write hdocument hplace), hentry]
      · rw [hstays place (owns_of_remove hdocument hplace), hsettled.removed place hplace]
    · exact h.settled other hother document' hdocument'
  · have hnot := hplace path List.mem_cons_self
    rw [h.kept place fun other hother => hplace other (List.mem_cons_of_mem _ hother)]
    exact hkept place (fun hwrite => hnot (owns_of_write hdocument hwrite))
      fun hremove => hnot (owns_of_remove hdocument hremove)

end

/-- **One fixture after the other**: if all that is written can be written, and no two fixtures
share an expected output, each is settled in the end. -/
theorem refreshes_of_written {paths : List Path} (hpaths : ∀ path ∈ paths, Listed before path)
    (hapart : paths.Pairwise fun path other => ∀ place, Owns before path place →
      ¬ Owns before other place)
    (hchanged : before.ChangedOnly IsExpectedName disk)
    (hwritten : ∀ notice ∈ (refreshAll paths disk).1, notice.isUnwritten = false) :
    Refreshes before paths disk (refreshAll paths disk).1 (refreshAll paths disk).2 := by
  induction paths generalizing disk with
  | nil =>
    refine ⟨rfl, hchanged, fun path hpath => ?_, fun place _ => rfl⟩
    cases hpath
  | cons path rest ih =>
    obtain ⟨hfirst, hrest⟩ := List.pairwise_cons.mp hapart
    have hlisted := hpaths path List.mem_cons_self
    have hread := hlisted.readFile hchanged
    rw [refreshAll_cons] at hwritten ⊢
    have hothers : ∀ notice ∈ (refreshAll rest (refreshOne path disk).2).1,
        notice.isUnwritten = false :=
      fun notice hnotice => hwritten notice (List.mem_cons_of_mem _ hnotice)
    have hrun := fun hchanged =>
      ih (fun other hother => hpaths other (List.mem_cons_of_mem _ hother)) hrest hchanged hothers
    cases hdocument : documentOf path (before.readFile path) with
    | error fault =>
      rw [refreshOne_of_unreadable (hread ▸ hdocument)] at hrun ⊢
      exact (hrun hchanged).cons_unreadable hdocument
    | ok document =>
      obtain ⟨holder, stem, hready⟩ := hlisted.ready document hdocument
      rcases hready.refreshOne hchanged (hread ▸ hdocument) with
        hunwritten | ⟨hnotice, hsettled, hkept⟩
      · rw [hwritten _ List.mem_cons_self] at hunwritten
        cases hunwritten
      · have hchanged' := changedOnly_refreshOne hlisted.visits hlisted.isDocument hchanged
        dsimp only
        rw [hnotice]
        exact (hrun hchanged').cons_settled hdocument hsettled hkept hfirst

/-- **Fixtures that are settled stay as they are.** -/
theorem Refreshes.again {paths : List Path} {said : List Notice}
    (hpaths : ∀ path ∈ paths, Listed before path) (h : Refreshes before paths disk said after) :
    refreshAll paths after = (said, after) := by
  have hone : ∀ path ∈ paths, refreshOne path after = (told before path, after) := by
    intro path hpath
    have hlisted := hpaths path hpath
    have hread := hlisted.readFile h.changed
    cases hdocument : documentOf path (before.readFile path) with
    | error fault => rw [refreshOne_of_unreadable (hread ▸ hdocument), told_of_error hdocument]
    | ok document =>
      obtain ⟨holder, stem, hready⟩ := hlisted.ready document hdocument
      rw [told_of_ok hdocument]
      exact Settled.refreshOne hready rfl h.changed (h.settled path hpath document hdocument)
        (hread ▸ hdocument)
  have hall : ∀ rest : List Path, (∀ path ∈ rest, path ∈ paths) →
      refreshAll rest after = (rest.map (told before), after) := by
    intro rest hrest
    induction rest with
    | nil => rfl
    | cons path rest ih =>
      rw [refreshAll_cons, hone path (hrest path List.mem_cons_self)]
      dsimp only
      rw [ih fun other hother => hrest other (List.mem_cons_of_mem _ hother)]
      rfl
  rw [hall paths fun _ hpath => hpath, h.said]

end NetScribe.Run.Fixtures
