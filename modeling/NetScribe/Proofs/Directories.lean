import Mathlib.Data.List.Forall2
import NetScribe.Proofs.Survey
import NetScribe.Proofs.Walks
import NetScribe.Run.Generate

/-!
# Documents of a directory

A run through a directory writes files while it walks, under names that come from its documents. All
of them end in a program's extension (`pieces_outputPath`), and no document's name does
(`not_isProgramName`), so what is written changes neither what is read later nor what the walk comes
to: each document is treated as if it were alone (`treatedAlike`), and the run leaves the files that
each of them would have written, up to one that stops it (`play_alike`). `directory_run_alone` puts
this together with the order of the walk and the code of the run. Only a directory whose path is too
long to be opened is passed over, with the documents in it (`far_document_passed_over`).
-/

namespace NetScribe.Run

open Files (Disk Tree Fault EntryKind Errand Walker IsName MonadFiles)

variable {settings : Settings} {path : Path} {disk before after : Disk} {name : String}
variable {document : Document} {content : ByteArray}

/-! ## One document -/

/-- Treat one document on a disk. -/
def treat (settings : Settings) (path : Path) (disk : Disk) : Account × Disk :=
  (generateFile settings path : StateM Disk Account) disk

/-- What is logged of a document on a disk. -/
def logAt (settings : Settings) (path : Path) (disk : Disk) : List Warning :=
  logOf settings path (disk.readFile path)

theorem treat_of_aborts (h : abortsAt settings path (disk.readFile path)) :
    treat settings path disk = (⟨logAt settings path disk, .aborted⟩, disk) := by
  unfold treat generateFile
  rw [Disk.bind_run, Disk.read_run, if_pos h]
  rfl

section

variable (hgoes : ¬ abortsAt settings path (disk.readFile path)) {target : Target}

include hgoes

theorem treat_of_error {failure : Failure}
    (h : targetOf settings path (disk.readFile path) = .error failure) :
    treat settings path disk = (⟨logAt settings path disk, .failed path.text failure⟩, disk) := by
  unfold treat generateFile
  rw [Disk.bind_run, Disk.read_run, if_neg hgoes, h]
  rfl

variable (h : targetOf settings path (disk.readFile path) = .ok target)

include h

theorem treat_of_unwritten {fault : Fault}
    (hwrite : disk.writeFile target.output target.source.code.toUTF8 = .error fault) :
    treat settings path disk =
      (⟨logAt settings path disk, .writeFailed target.output fault⟩, disk) := by
  unfold treat generateFile
  rw [Disk.bind_run, Disk.read_run, if_neg hgoes, h]
  dsimp only
  rw [Disk.bind_run, Disk.write_run_of_error hwrite]
  rfl

theorem treat_of_written
    (hwrite : disk.writeFile target.output target.source.code.toUTF8 = .ok after) :
    treat settings path disk =
      (⟨logAt settings path disk, .written target.output target.source.warnings.length⟩,
        after) := by
  unfold treat generateFile
  rw [Disk.bind_run, Disk.read_run, if_neg hgoes, h]
  dsimp only
  rw [Disk.bind_run, Disk.write_run_of_ok hwrite]
  rfl

end

/-- **What treating a document can come to**: it stops the run, it fails, its program cannot be
written, or it is written. -/
theorem treat_cases (settings : Settings) (path : Path) (disk : Disk) :
    (abortsAt settings path (disk.readFile path) ∧
      treat settings path disk = (⟨logAt settings path disk, .aborted⟩, disk)) ∨
    (∃ failure, targetOf settings path (disk.readFile path) = .error failure ∧
      treat settings path disk = (⟨logAt settings path disk, .failed path.text failure⟩, disk)) ∨
    (∃ target fault, targetOf settings path (disk.readFile path) = .ok target ∧
      treat settings path disk =
        (⟨logAt settings path disk, .writeFailed target.output fault⟩, disk)) ∨
    ∃ target after, targetOf settings path (disk.readFile path) = .ok target ∧
      disk.writeFile target.output target.source.code.toUTF8 = .ok after ∧
      treat settings path disk =
        (⟨logAt settings path disk, .written target.output target.source.warnings.length⟩,
          after) := by
  by_cases hgoes : abortsAt settings path (disk.readFile path)
  · exact Or.inl ⟨hgoes, treat_of_aborts hgoes⟩
  · right
    cases htarget : targetOf settings path (disk.readFile path) with
    | error failure => exact Or.inl ⟨failure, rfl, treat_of_error hgoes htarget⟩
    | ok target =>
      right
      cases hwrite : disk.writeFile target.output target.source.code.toUTF8 with
      | error fault => exact Or.inl ⟨target, fault, rfl, treat_of_unwritten hgoes htarget hwrite⟩
      | ok after => exact Or.inr ⟨target, after, rfl, hwrite, treat_of_written hgoes htarget hwrite⟩

/-- **A document that fails changes nothing.** -/
theorem treat_of_not_written (h : (treat settings path disk).1.isWritten = false) :
    (treat settings path disk).2 = disk := by
  rcases treat_cases settings path disk with ⟨-, htreat⟩ | ⟨_, -, htreat⟩ | ⟨_, _, -, htreat⟩ |
    ⟨_, _, -, -, htreat⟩
  · rw [htreat]
  · rw [htreat]
  · rw [htreat]
  · rw [htreat] at h
    cases h

theorem abortsAt_of_isAborted (h : (treat settings path disk).1.isAborted) :
    abortsAt settings path (disk.readFile path) := by
  rcases treat_cases settings path disk with ⟨haborts, -⟩ | ⟨_, -, htreat⟩ | ⟨_, _, -, htreat⟩ |
    ⟨_, _, -, -, htreat⟩
  · exact haborts
  · rw [htreat] at h
    cases h
  · rw [htreat] at h
    cases h
  · rw [htreat] at h
    cases h

theorem documentOf_toUTF8 (path : Path) (text : String) :
    documentOf path (.ok text.toUTF8) = Document.ofText text := by
  unfold documentOf
  rw [Disk.decode_toUTF8]

theorem exists_of_documentOf {content : Except Fault ByteArray} {document : Document}
    (h : documentOf path content = .ok document) : ∃ bytes, content = .ok bytes := by
  cases content with
  | error fault => cases h
  | ok bytes => exact ⟨bytes, rfl⟩

/-! ### Lines that cannot be indented -/

/-- A document passes the check, and either there is no page for it or the blanks in front of its
deepest line cannot be written. -/
def Settings.Overruns (settings : Settings) (document : Document) : Prop :=
  document.program.mainPaths.length ≤ 1 ∧
    Java.Page.maxWidth < settings.options.width *
      max 1 (document.program.reach document.resources.loader settings.options.mode)

/-- **A document stops the run** if it passes the check and its deepest line cannot be indented. -/
theorem aborts_iff : settings.aborts document ↔ settings.Overruns document := by
  have hsome := @isSome_compile? document.resources.loader settings.options document.program
  unfold Settings.aborts
  rw [Option.isNone_iff_eq_none, ← Option.not_isSome_iff_eq_none, hsome, not_or, Nat.not_lt]
  refine and_congr_right fun _ => ?_
  rw [Options.writable, Java.Page.fits, decide_eq_true_iff, Nat.not_le]

theorem abortsAt_iff {content : Except Fault ByteArray} :
    abortsAt settings path content ↔
      ∃ document, documentOf path content = .ok document ∧ settings.aborts document := by
  unfold abortsAt
  cases documentOf path content with
  | error fault => simp
  | ok document => simp

/-- Where there is no page, a program that is not stopped has failed the check. -/
theorem compile_error_of_wide (hwide : Java.Page.maxWidth < settings.options.width)
    (h : ¬ settings.aborts document) : ∃ failure, settings.compile document = .error failure := by
  rw [aborts_iff, Settings.Overruns, not_and] at h
  have hseveral : 1 < document.program.mainPaths.length := by
    by_contra hsingle
    refine h (Nat.le_of_not_lt hsingle) (Nat.lt_of_lt_of_le hwide ?_)
    exact Nat.le_mul_of_pos_right _ (Nat.le_max_left 1 _)
  unfold Settings.compile
  rw [compile_of_several hseveral]
  exact ⟨_, rfl⟩

theorem eq_ok_of_toOption {ε α : Type} {result : Except ε α} {value : α}
    (h : result.toOption = some value) : result = .ok value := by
  cases result with
  | error error => cases h
  | ok found => exact congrArg Except.ok (Option.some.inj h)

/-- A document given by its text, as far as to the file that is written. -/
theorem treat_of_text {text : String} {output : Path} (source : Source)
    (hread : disk.readFile path = .ok text.toUTF8)
    (h : (Document.ofText text).toOption.bind (fun document =>
      if settings.aborts document then none
      else (settings.compile document).toOption.map fun source =>
        (outputPath path document, settings.log document, source)) =
          some (output, source.warnings, source))
    (hwrite : disk.writeFile output source.code.toUTF8 = .ok after) :
    treat settings path disk =
      (⟨source.warnings, .written output source.warnings.length⟩, after) := by
  have hdocument := documentOf_toUTF8 path text
  obtain ⟨document, htext, hrest⟩ := Option.bind_eq_some_iff.mp h
  have hgoes : ¬ settings.aborts document := by
    intro haborts
    rw [if_pos haborts] at hrest
    cases hrest
  rw [if_neg hgoes] at hrest
  obtain ⟨found, hsource, hparts⟩ := Option.map_eq_some_iff.mp hrest
  obtain ⟨houtput, hothers⟩ := Prod.mk.inj hparts
  obtain ⟨hlog, rfl⟩ := Prod.mk.inj hothers
  rw [← hread, eq_ok_of_toOption htext] at hdocument
  have hlogAt : logAt settings path disk = found.warnings := by
    rw [← hlog]
    simp [logAt, logOf, hdocument]
  have htarget : targetOf settings path (disk.readFile path) = .ok ⟨output, found⟩ := by
    simp [targetOf, hdocument, eq_ok_of_toOption hsource, houtput]
  have hgoes' : ¬ abortsAt settings path (disk.readFile path) := by
    simpa [abortsAt, hdocument] using hgoes
  rw [treat_of_written hgoes' htarget hwrite, hlogAt]

/-- **Where there is no page, nothing is written.** -/
theorem treat_of_wide (hwide : Java.Page.maxWidth < settings.options.width) (path : Path)
    (disk : Disk) : (treat settings path disk).1.isWritten = false := by
  by_cases hgoes : abortsAt settings path (disk.readFile path)
  · rw [treat_of_aborts hgoes]
    rfl
  · have herror : ∃ failure, targetOf settings path (disk.readFile path) = .error failure := by
      unfold abortsAt at hgoes
      unfold targetOf
      split at hgoes
      · next fault hdocument => exact ⟨.document fault, rfl⟩
      · next document hdocument =>
        obtain ⟨failure, hfailure⟩ := compile_error_of_wide hwide hgoes
        rw [hfailure]
        exact ⟨failure, rfl⟩
    obtain ⟨failure, hfailure⟩ := herror
    rw [treat_of_error hgoes hfailure]
    rfl

/-! ## Where programs go -/

/-- A name that programs are written under. -/
def IsProgramName (name : String) : Prop := ".java".toList <:+ name.toList

/-- **A program goes to a name that ends in its extension**, whatever the name of its class. -/
theorem pieces_outputPath (path : Path) (document : Document) :
    ∃ front last, (outputPath path document).pieces = front ++ [last ++ ".java".toList] := by
  have hjoin : ∀ (directory : Path) (name : String),
      ∃ front last, (directory.join (name ++ ".java")).pieces =
        front ++ [last ++ ".java".toList] := by
    intro directory name
    obtain ⟨front, last, hpieces⟩ := Path.pieces_append name ".java" (by decide)
    by_cases hhead : (name ++ ".java").toList.head? = some '/'
    · rw [Path.join_absolute directory hhead]
      exact ⟨front, last, hpieces⟩
    · rw [Path.pieces_join directory hhead, hpieces, ← List.append_assoc]
      exact ⟨_, last, rfl⟩
  unfold outputPath Path.withFileName
  split
  · exact hjoin _ _
  · exact hjoin _ _

theorem output_of_targetOf {content : Except Fault ByteArray} {target : Target}
    (h : targetOf settings path content = .ok target) :
    ∃ document, documentOf path content = .ok document ∧
      settings.compile document = .ok target.source ∧
      target.output = outputPath path document := by
  unfold targetOf at h
  split at h
  · cases h
  · next document hdocument =>
    split at h
    · cases h
    · next source hsource =>
      obtain rfl := Except.ok.inj h
      exact ⟨document, hdocument, hsource, rfl⟩

/-- Where a program was written, it has a program's name. -/
theorem takes_outputPath (hdisk : disk.WellFormed)
    (hwrite : disk.writeFile (outputPath path document) content = .ok after) :
    ∃ holder name, disk.Takes (outputPath path document) holder name ∧ IsProgramName name := by
  obtain ⟨front, last, hpieces⟩ := pieces_outputPath path document
  obtain ⟨holder, htakes⟩ := Disk.takes_of_writeFile hdisk hpieces
    (by cases last <;> simp [Path.isIdle])
    (fun heq => by simpa using congrArg List.length heq) hwrite
  exact ⟨holder, _, htakes, last, String.toList_ofList.symm⟩

theorem takes_output (hdisk : disk.WellFormed) {source : Except Fault ByteArray} {target : Target}
    (htarget : targetOf settings path source = .ok target)
    (hwrite : disk.writeFile target.output content = .ok after) :
    ∃ holder name, disk.Takes target.output holder name ∧ IsProgramName name := by
  obtain ⟨document, -, -, houtput⟩ := output_of_targetOf htarget
  rw [houtput] at hwrite ⊢
  exact takes_outputPath hdisk hwrite

theorem isDocument_of_last {front : List (List Char)} (h : path.pieces = front ++ [name.toList])
    (hname : IsName name) :
    isDocument path = ((Path.cutName name.toList).2.map String.ofList == some "json") := by
  unfold isDocument
  rw [Path.extension?_of_last h hname.not_idle hname.not_up]

/-- A document's name is a stem with its extension. -/
theorem exists_stem {front : List (List Char)} (hpieces : path.pieces = front ++ [name.toList])
    (hname : IsName name) (h : isDocument path) :
    ∃ stem, stem ≠ [] ∧ name.toList = stem ++ ".json".toList := by
  rw [isDocument_of_last hpieces hname] at h
  obtain ⟨extension, hcut, hext⟩ := Option.map_eq_some_iff.mp (eq_of_beq h)
  obtain ⟨stem, hstem, -, hletters⟩ := Path.cutName_snd_eq_some.mp hcut
  refine ⟨stem, hstem, ?_⟩
  rw [hletters, ← String.toList_ofList (l := extension), hext]
  rfl

/-- **A program's name is no document's name.** -/
theorem not_isProgramName (directory : Path) (hname : IsName name)
    (h : isDocument (directory.join name)) : ¬ IsProgramName name := by
  obtain ⟨stem, -, hletters⟩ := exists_stem (Disk.pieces_join_name directory hname) hname h
  rintro ⟨front, hfront⟩
  have hlast := congrArg List.getLast? (hfront.trans hletters)
  simp at hlast

/-! ## One document after others -/

/-- Two accounts of one document: the same, but for the reason why its program could not be
written. -/
inductive Account.Alike : Account → Account → Prop
  | same (account : Account) : Alike account account
  | unwritten (log : List Warning) (output : Path) (fault fault' : Fault) :
    Alike ⟨log, .writeFailed output fault⟩ ⟨log, .writeFailed output fault'⟩

theorem Account.Alike.isWritten {account account' : Account} (h : account.Alike account') :
    account'.isWritten = account.isWritten := by
  cases h <;> rfl

theorem Account.Alike.isAborted {account account' : Account} (h : account.Alike account') :
    account'.isAborted = account.isAborted := by
  cases h <;> rfl

/-- The file that is written if a document is treated alone, and what it holds then. -/
def programOf (settings : Settings) (disk : Disk) (path : Path) : Option (Path × ByteArray) :=
  let treated := treat settings path disk
  match treated.1.notice with
  | .written output _ => (treated.2.readFile output).toOption.map fun content => (output, content)
  | _ => none

theorem programOf_of_not_written (h : (treat settings path disk).1.isWritten = false) :
    programOf settings disk path = none := by
  unfold programOf
  generalize treat settings path disk = treated at h
  obtain ⟨⟨log, notice⟩, after⟩ := treated
  cases notice with
  | written output warnings => cases h
  | _ => rfl

theorem programOf_of_takes (hwell : disk.WellFormed) {log : List Warning} {output : Path}
    {warnings : Nat} (h : treat settings path disk = (⟨log, .written output warnings⟩, after))
    {holder : List String}
    (hwrite : disk.writeFile output content = .ok after) (htakes : disk.Takes output holder name) :
    programOf settings disk path = some (output, content) := by
  unfold programOf
  rw [h]
  dsimp only
  rw [htakes.writeFile] at hwrite
  obtain rfl := Except.ok.inj hwrite
  rw [htakes.readFile hwell]
  rfl

/-- **What a document writes** is its own program, at a program's name. -/
theorem exists_of_isWritten (hwell : disk.WellFormed)
    (h : (treat settings path disk).1.isWritten) :
    ∃ target holder name, targetOf settings path (disk.readFile path) = .ok target ∧
      programOf settings disk path = some (target.output, target.source.code.toUTF8) ∧
      disk.Takes target.output holder name ∧ IsProgramName name := by
  rcases treat_cases settings path disk with ⟨-, htreat⟩ | ⟨_, -, htreat⟩ | ⟨_, _, -, htreat⟩ |
    ⟨target, written, htarget, hwrite, htreat⟩
  · rw [htreat] at h
    cases h
  · rw [htreat] at h
    cases h
  · rw [htreat] at h
    cases h
  · obtain ⟨holder, name, htakes, hname⟩ := takes_output hwell htarget hwrite
    refine ⟨target, holder, name, htarget, ?_, htakes, hname⟩
    exact programOf_of_takes hwell htreat hwrite htakes

/-- What treating a document on a disk has in common with treating it on another one. -/
structure TreatedAlike (settings : Settings) (path : Path) (before disk : Disk) : Prop where
  account : (treat settings path before).1.Alike (treat settings path disk).1
  writes : disk.writeAll (programOf settings before path).toList = .ok (treat settings path disk).2
  changed : before.ChangedOnly IsProgramName (treat settings path disk).2

/-- A document that is written on neither disk. -/
theorem TreatedAlike.of_kept {account account' : Account}
    (hchanged : before.ChangedOnly IsProgramName disk)
    (hbefore : treat settings path before = (account, before))
    (hdisk : treat settings path disk = (account', disk)) (halike : account.Alike account')
    (hnot : account.isWritten = false) : TreatedAlike settings path before disk := by
  have hnone : programOf settings before path = none := by
    refine programOf_of_not_written ?_
    rw [hbefore]
    exact hnot
  refine ⟨?_, ?_, ?_⟩
  · rw [hbefore, hdisk]
    exact halike
  · rw [hnone, hdisk]
    rfl
  · rw [hdisk]
    exact hchanged

/-- **A document is treated as if it were alone**: where only programs have changed, it succeeds or
fails as on the disk before, and what it writes is what it would have written there. -/
theorem treatedAlike (hwell : before.WellFormed) (hchanged : before.ChangedOnly IsProgramName disk)
    (hread : disk.readFile path = before.readFile path) :
    TreatedAlike settings path before disk := by
  have hlog : logAt settings path disk = logAt settings path before := by rw [logAt, hread, logAt]
  by_cases hgoes : abortsAt settings path (before.readFile path)
  · refine .of_kept hchanged (treat_of_aborts hgoes) (treat_of_aborts (hread ▸ hgoes)) ?_ rfl
    rw [hlog]
    exact .same _
  have hgoes' : ¬ abortsAt settings path (disk.readFile path) := hread ▸ hgoes
  cases htarget : targetOf settings path (before.readFile path) with
  | error failure =>
    have htarget' := htarget
    rw [← hread] at htarget'
    refine .of_kept hchanged (treat_of_error hgoes htarget) (treat_of_error hgoes' htarget') ?_ rfl
    rw [hlog]
    exact .same _
  | ok target =>
    have htarget' := htarget
    rw [← hread] at htarget'
    cases hwrite : before.writeFile target.output target.source.code.toUTF8 with
    | error fault =>
      cases hwrite' : disk.writeFile target.output target.source.code.toUTF8 with
      | error fault' =>
        refine .of_kept hchanged (treat_of_unwritten hgoes htarget hwrite)
          (treat_of_unwritten hgoes' htarget' hwrite') ?_ rfl
        rw [hlog]
        exact .unwritten _ _ _ _
      | ok written =>
        -- the directories are the same, so the program could have been written before as well
        obtain ⟨holder, name, htakes, -⟩ := takes_output hchanged.wellFormed htarget hwrite'
        rw [(htakes.congr hchanged.same.symm).writeFile] at hwrite
        cases hwrite
    | ok written =>
      obtain ⟨holder, name, htakes, hname⟩ := takes_output hwell htarget hwrite
      have htakes' := htakes.congr hchanged.same
      have hwrite' := htakes'.writeFile target.source.code.toUTF8
      have hbefore := treat_of_written hgoes htarget hwrite
      have hdisk := treat_of_written hgoes' htarget' hwrite'
      have hprogram := programOf_of_takes hwell hbefore hwrite htakes
      refine ⟨?_, ?_, ?_⟩
      · rw [hbefore, hdisk, hlog]
        exact .same _
      · rw [hprogram, hdisk, ← hwrite']
        exact List.foldlM_cons.trans (bind_pure _)
      · rw [hdisk]
        exact hchanged.write htakes' hname _

/-! ## All documents of a directory -/

/-- The errand of a run through a directory. -/
def errand (settings : Settings) : Errand Account where
  chosen := isDocument
  treat := treat settings
  stops := Account.isAborted

/-- **Documents are read as before**, wherever a walk comes to them, if no document has changed. -/
theorem readFile_of_visits {free : String → Prop}
    (hfree : ∀ directory name, IsName name → isDocument (Path.join directory name) → ¬ free name)
    (hchanged : before.ChangedOnly free disk) (hvisits : before.Visits path)
    (hdocument : isDocument path) : disk.readFile path = before.readFile path := by
  rcases hvisits with ⟨target, hopens⟩ | ⟨directory, holder, name, hopens, hname, rfl⟩
  · exact hopens.readFile_congr hchanged.same
  · exact hchanged.readFile hopens hname (hfree directory name hname hdocument)

/-- A document that a walk comes to is treated as if it were alone. -/
theorem treatedAlike_of_visits (settings : Settings) (hwell : before.WellFormed)
    (hchanged : before.ChangedOnly IsProgramName disk) (hvisits : before.Visits path)
    (hdocument : isDocument path) : TreatedAlike settings path before disk :=
  treatedAlike hwell hchanged (readFile_of_visits
    (fun directory _ hname => not_isProgramName directory hname) hchanged hvisits hdocument)

theorem harmless_errand (settings : Settings) (hwell : before.WellFormed) :
    (errand settings).Harmless IsProgramName before where
  chosen directory _ hname hdocument := not_isProgramName directory hname hdocument
  treat _ _ hvisits hdocument hchanged :=
    (treatedAlike_of_visits settings hwell hchanged hvisits hdocument).changed

/-- The items of a list up to the first one with a property, with it. -/
def upTo {α : Type} (stops : α → Bool) : List α → List α
  | [] => []
  | item :: rest => if stops item then [item] else item :: upTo stops rest

theorem upTo_of_none {α : Type} {stops : α → Bool} {items : List α}
    (h : items.any stops = false) : upTo stops items = items := by
  induction items with
  | nil => rfl
  | cons item rest ih =>
    rw [List.any_cons, Bool.or_eq_false_iff] at h
    rw [upTo, h.1, if_neg Bool.false_ne_true, ih h.2]

theorem play_of_stops (h : (treat settings path disk).1.isAborted) (rest : List Path) :
    (errand settings).play (path :: rest) disk =
      ⟨[(treat settings path disk).1], (treat settings path disk).2, true⟩ := by
  rw [Errand.play]
  exact if_pos h

theorem play_of_goes (h : (treat settings path disk).1.isAborted = false) (rest : List Path) :
    (errand settings).play (path :: rest) disk =
      let report := (errand settings).play rest (treat settings path disk).2
      { report with said := (treat settings path disk).1 :: report.said } := by
  rw [Errand.play]
  exact if_neg (Bool.eq_false_iff.mp h)

/-- A document stops the run. -/
def stops (settings : Settings) (disk : Disk) (path : Path) : Bool :=
  (treat settings path disk).1.isAborted

/-- **One document after the other**: each is told of as it would be alone, up to the first that
stops the run, and the files are those that each would have written. -/
theorem play_alike (settings : Settings) (hwell : before.WellFormed) {paths : List Path}
    (hpaths : ∀ path ∈ paths, before.Visits path ∧ isDocument path)
    (hchanged : before.ChangedOnly IsProgramName disk) :
    List.Forall₂ Account.Alike
        ((upTo (stops settings before) paths).map fun path => (treat settings path before).1)
        ((errand settings).play paths disk).said ∧
      ((errand settings).play paths disk).stopped = paths.any (stops settings before) ∧
      disk.writeAll ((upTo (stops settings before) paths).filterMap (programOf settings before)) =
        .ok ((errand settings).play paths disk).disk := by
  induction paths generalizing disk with
  | nil => exact ⟨.nil, rfl, rfl⟩
  | cons path rest ih =>
    obtain ⟨hvisits, hdocument⟩ := hpaths path List.mem_cons_self
    have halike := treatedAlike_of_visits settings hwell hchanged hvisits hdocument
    have hstops : (treat settings path disk).1.isAborted = stops settings before path :=
      halike.account.isAborted
    have hwrites : ∀ paths, disk.writeAll ((path :: paths).filterMap (programOf settings before)) =
        (treat settings path disk).2.writeAll (paths.filterMap (programOf settings before)) := by
      intro paths
      rw [List.filterMap_eq_flatMap_toList, List.flatMap_cons, Disk.writeAll_append, halike.writes,
        List.filterMap_eq_flatMap_toList]
      rfl
    cases hstop : stops settings before path with
    | true =>
      rw [play_of_stops (hstops.trans hstop), upTo, if_pos hstop, hwrites, List.any_cons, hstop]
      exact ⟨.cons halike.account .nil, rfl, rfl⟩
    | false =>
      obtain ⟨hsaid, hstopped, hfiles⟩ :=
        ih (fun other hother => hpaths other (List.mem_cons_of_mem _ hother)) halike.changed
      rw [play_of_goes (hstops.trans hstop), upTo, if_neg (Bool.eq_false_iff.mp hstop), hwrites,
        List.any_cons, hstop]
      exact ⟨.cons halike.account hsaid, hstopped, hfiles⟩

/-- **Documents are treated one after the other** as by the errand. -/
theorem generateAll_run (settings : Settings) (paths : List Path) (disk : Disk) :
    (generateAll settings paths : StateM Disk (List Account)) disk =
        (((errand settings).play paths disk).said, ((errand settings).play paths disk).disk) ∧
      ((errand settings).play paths disk).said.any Account.isAborted =
        ((errand settings).play paths disk).stopped := by
  induction paths generalizing disk with
  | nil => exact ⟨rfl, rfl⟩
  | cons path rest ih =>
    rw [generateAll, Disk.bind_run]
    change (if (treat settings path disk).1.isAborted then _ else _ : StateM Disk (List Account))
      (treat settings path disk).2 = _ ∧ _
    cases hstops : (treat settings path disk).1.isAborted with
    | true =>
      rw [play_of_stops hstops, if_pos rfl, List.any_cons, hstops]
      exact ⟨rfl, rfl⟩
    | false =>
      obtain ⟨hrest, hstopped⟩ := ih (treat settings path disk).2
      rw [play_of_goes hstops, if_neg Bool.false_ne_true, Disk.bind_run, hrest, List.any_cons,
        hstops, hstopped]
      exact ⟨rfl, rfl⟩

/-- How a run through a directory ends, by what came of its errand. -/
def ending (directory : Path) (report : Errand.Report Account) : Outcome :=
  if report.said.isEmpty then { code := 1, notices := [.noDocuments directory] }
  else if report.stopped then
    { code := abortedCode, notices := report.said.flatMap Account.notices }
  else
    { code := if report.said.all Account.isWritten then 0 else 1
      notices := report.said.flatMap Account.notices ++
        [.generated (report.said.countP Account.isWritten)] }

/-- **A run through a directory is its errand** at the documents that were there at the start. -/
theorem generateDirectory_run {directory : Path} {tree : Tree}
    (h : disk.lookup? directory = some tree) :
    (generateDirectory settings directory : StateM Disk Outcome) disk =
      let report :=
        (errand settings).play ((tree.walk Disk.opens directory).filter isDocument) disk
      (ending directory report, report.disk) := by
  unfold generateDirectory
  rw [Disk.bind_run, Disk.walk_run h]
  dsimp only
  rw [Disk.bind_run]
  generalize (tree.walk Disk.opens directory).filter isDocument = paths
  obtain ⟨hall, hstopped⟩ := generateAll_run settings paths disk
  rw [hall, ending, ← hstopped]
  generalize (errand settings).play paths disk = report
  dsimp only
  split
  · rfl
  · split <;> rfl

theorem runOn_directory {directory : Path} {entries : List (String × Tree)}
    (h : disk.lookup? directory = some (.directory entries)) (input : ByteArray) :
    (Invocation.command ⟨.path directory, settings⟩).runOn input disk =
      let report := (errand settings).play
        (((Tree.directory entries).walk Disk.opens directory).filter isDocument) disk
      (ending directory report, report.disk) := by
  rw [← generateDirectory_run h]
  change (generatePath settings directory : StateM Disk Outcome) disk = _
  unfold generatePath
  rw [Disk.bind_run, Disk.kind_run, h]
  rfl

/-! ## The run as a whole -/

section

variable {directory : Path} {entries : List (String × Tree)} {place : List String}

/-- The names that lead from a directory to its documents. -/
def documentsBelow (directory : Path) (entries : List (String × Tree)) : List (List String) :=
  ((Tree.directory entries).reach Disk.opens directory).filter
    fun names => isDocument (directory.below names)

theorem walk_documents (directory : Path) (entries : List (String × Tree)) :
    ((Tree.directory entries).walk Disk.opens directory).filter isDocument =
      (documentsBelow directory entries).map directory.below := by
  rw [Tree.walk_eq_reach, List.filter_map]
  rfl

theorem mem_documentsBelow (h : (Tree.directory entries).WellFormed) {names : List String} :
    names ∈ documentsBelow directory entries ↔
      ((Tree.directory entries).get? names).isSome ∧ isDocument (directory.below names) ∧
        (names = [] ∨ Disk.opens (directory.below names.dropLast)) := by
  have hopens : ∀ path name, IsName name → Disk.opens (Path.join path name) → Disk.opens path := by
    intro path name hname hjoin
    exact Option.isNone_iff_eq_none.mpr
      (Disk.refused?_of_join hname (Option.isNone_iff_eq_none.mp hjoin))
  rw [documentsBelow, List.mem_filter, Tree.mem_reach h hopens, and_assoc, and_comm (a := _ ∨ _)]

theorem pairwise_documentsBelow (directory : Path) (h : (Tree.directory entries).WellFormed) :
    (documentsBelow directory entries).Pairwise (List.Lex Tree.NameBefore) :=
  (Tree.pairwise_reach directory h).filter _

/-- A directory has the documents it had if none of them has changed. -/
theorem documentsBelow_congr {free : String → Prop} {entries' : List (String × Tree)}
    (hfree : ∀ directory name, IsName name → isDocument (Path.join directory name) → ¬ free name)
    (hwell : before.WellFormed) (hchanged : before.ChangedOnly free after)
    (hentries : before.tree.get? place = some (.directory entries))
    (hentries' : after.tree.get? place = some (.directory entries')) :
    documentsBelow directory entries' = documentsBelow directory entries := by
  have htree := hwell.tree.of_get? hentries
  have htree' := hchanged.wellFormed.tree.of_get? hentries'
  refine Tree.eq_of_lex (pairwise_documentsBelow directory htree')
    (pairwise_documentsBelow directory htree) fun names => ?_
  rw [mem_documentsBelow htree', mem_documentsBelow htree]
  refine and_congr_left fun ⟨hdocument, _⟩ => ?_
  have hget : ∀ (disk : Disk) (list : List (String × Tree)),
      disk.tree.get? place = some (.directory list) →
      ((Tree.directory list).get? names).isSome = (disk.tree.entryAt (place ++ names)).isSome := by
    intro disk list hlist
    rw [Tree.entryAt, Option.isSome_map, Tree.get?_append, hlist]
    rfl
  rw [hget after entries' hentries', hget before entries hentries]
  cases hlast : names.getLast? with
  | none =>
    rw [List.getLast?_eq_none_iff.mp hlast, List.append_nil,
      Tree.entryAt_eq_directory.mpr ⟨_, hentries⟩, Tree.entryAt_eq_directory.mpr ⟨_, hentries'⟩]
  | some last =>
    obtain ⟨front, rfl⟩ := List.getLast?_eq_some_iff.mp hlast
    rw [Path.below_concat] at hdocument
    rw [← List.append_assoc]
    rw [hchanged.entryAt_eq hwell _ fun hname => hfree _ last hname hdocument]

theorem visits_documents (hwell : before.WellFormed)
    (hshows : before.Shows directory place entries) :
    ∀ path ∈ (documentsBelow directory entries).map directory.below,
      before.Visits path ∧ isDocument path := by
  intro path hpath
  rw [← walk_documents] at hpath
  obtain ⟨hmem, hdocument⟩ := List.mem_filter.mp hpath
  exact ⟨hshows.visits_of_mem_walk hwell hmem, hdocument⟩

end

theorem stops_iff :
    stops settings disk path ↔ ∃ document, documentOf path (disk.readFile path) = .ok document ∧
      settings.Overruns document := by
  have haborts : stops settings disk path ↔ abortsAt settings path (disk.readFile path) := by
    refine ⟨abortsAt_of_isAborted, fun h => ?_⟩
    rw [stops, treat_of_aborts h]
    rfl
  rw [haborts, abortsAt_iff]
  refine exists_congr fun document => and_congr_right fun _ => aborts_iff

theorem takes_programs (settings : Settings) (hwell : disk.WellFormed) (paths : List Path) :
    ∀ file ∈ paths.filterMap (programOf settings disk),
      ∃ holder name, disk.Takes file.1 holder name ∧ IsProgramName name := by
  intro file hfile
  obtain ⟨path, -, hprogram⟩ := List.mem_filterMap.mp hfile
  cases hwritten : (treat settings path disk).1.isWritten with
  | false =>
    rw [programOf_of_not_written hwritten] at hprogram
    cases hprogram
  | true =>
    obtain ⟨target, holder, name, -, hprogram', htakes, hname⟩ := exists_of_isWritten hwell hwritten
    rw [hprogram'] at hprogram
    obtain rfl := Option.some.inj hprogram
    exact ⟨holder, name, htakes, hname⟩

/-- What differs at the end is a file with a program's name. -/
theorem isProgramName_of_changed {files : List (Path × ByteArray)} (hwell : before.WellFormed)
    (hfiles : ∀ file ∈ files, ∃ holder name, before.Takes file.1 holder name ∧ IsProgramName name)
    (h : before.writeAll files = .ok after) {place : List String}
    (hplace : after.tree.entryAt place ≠ before.tree.entryAt place) :
    ∃ holder name content, place = holder ++ [name] ∧ IsProgramName name ∧
      after.tree.entryAt place = some (.file content) := by
  have hlast := Disk.entryAt_writeAll hfiles (.refl hwell) h place
  cases hfound : files.reverse.find? fun file => before.target? file.1 == some place with
  | none =>
    rw [hfound] at hlast
    exact absurd hlast hplace
  | some file =>
    rw [hfound] at hlast
    obtain ⟨holder, name, htakes, hname⟩ :=
      hfiles file (List.mem_reverse.mp (List.mem_of_find?_eq_some hfound))
    have htarget : before.target? file.1 = some place := by
      simpa using List.find?_some hfound
    rw [htakes.target?] at htarget
    exact ⟨holder, name, file.2, (Option.some.inj htarget).symm, hname, hlast⟩

section

variable {first second : List Account}

theorem countP_isWritten_of_alike (h : List.Forall₂ Account.Alike first second) :
    second.countP Account.isWritten = first.countP Account.isWritten := by
  induction h with
  | nil => rfl
  | cons halike _ ih => rw [List.countP_cons, List.countP_cons, ih, halike.isWritten]

theorem all_isWritten_of_alike (h : List.Forall₂ Account.Alike first second) :
    second.all Account.isWritten = first.all Account.isWritten := by
  induction h with
  | nil => rfl
  | cons halike _ ih => rw [List.all_cons, List.all_cons, ih, halike.isWritten]

end

theorem isEmpty_upTo {α : Type} (stops : α → Bool) (items : List α) :
    (upTo stops items).isEmpty = items.isEmpty := by
  cases items with
  | nil => rfl
  | cons item rest =>
    rw [upTo]
    split <;> rfl

/-- How a run ends, by what comes of each document alone. -/
theorem ending_of_alike (directory : Path) {paths : List Path} {report : Errand.Report Account}
    (hsaid : List.Forall₂ Account.Alike
      ((upTo (stops settings before) paths).map fun path => (treat settings path before).1)
      report.said)
    (hstopped : report.stopped = paths.any (stops settings before)) :
    ending directory report =
      if paths.isEmpty then { code := 1, notices := [.noDocuments directory] }
      else if paths.any (stops settings before) then
        { code := abortedCode, notices := report.said.flatMap Account.notices }
      else
        { code := if paths.all (fun path => (treat settings path before).1.isWritten) then 0 else 1
          notices := report.said.flatMap Account.notices ++
            [.generated (paths.countP fun path => (treat settings path before).1.isWritten)] } := by
  have hempty : report.said.isEmpty = paths.isEmpty := by
    have hlength := hsaid.length_eq
    rw [List.length_map] at hlength
    rw [← isEmpty_upTo (stops settings before), Bool.eq_iff_iff, List.isEmpty_iff, List.isEmpty_iff,
      ← List.length_eq_zero_iff, ← List.length_eq_zero_iff, hlength]
  unfold ending
  rw [hempty, hstopped]
  split
  · rfl
  · cases hstops : paths.any (stops settings before) with
    | true => rfl
    | false =>
      rw [upTo_of_none hstops] at hsaid
      rw [countP_isWritten_of_alike hsaid, all_isWritten_of_alike hsaid, List.countP_map,
        List.all_map]
      rfl

section

variable {documents : List (List String)} {directory : Path} {report : Errand.Report Account}
variable (hsaid : List.Forall₂ Account.Alike
  ((upTo (stops settings before) (documents.map directory.below)).map
    fun path => (treat settings path before).1) report.said)
variable (hstopped : report.stopped = (documents.map directory.below).any (stops settings before))

include hsaid hstopped

theorem notices_of_alike : (ending directory report).notices =
    if documents.isEmpty then [.noDocuments directory]
    else if (documents.map directory.below).any (stops settings before) then
      report.said.flatMap Account.notices
    else
      report.said.flatMap Account.notices ++ [.generated (documents.countP fun names =>
        (treat settings (directory.below names) before).1.isWritten)] := by
  rw [ending_of_alike directory hsaid hstopped, List.isEmpty_map]
  split
  · rfl
  · split
    · rfl
    · rw [List.countP_map]
      rfl

theorem code_of_alike : (ending directory report).code =
    if (documents.map directory.below).any (stops settings before) then abortedCode
    else if !documents.isEmpty &&
      documents.all fun names => (treat settings (directory.below names) before).1.isWritten then 0
    else 1 := by
  rw [ending_of_alike directory hsaid hstopped, List.isEmpty_map, List.all_map]
  cases hempty : documents.isEmpty with
  | true =>
    rw [List.isEmpty_iff.mp hempty]
    rfl
  | false => cases (documents.map directory.below).any (stops settings before) <;> rfl

end

/-- What a run on a directory comes to, told by what comes of each of its documents alone, on the
disk as it was before. -/
structure DirectoryRun (settings : Settings) (directory : Path) (entries : List (String × Tree))
    (before : Disk) (documents : List (List String)) (said : List Account) (outcome : Outcome)
    (after : Disk) : Prop where
  /-- The documents are the entries with the name of one, the directory itself included, in
  directories whose paths a system call takes. -/
  mem_documents : ∀ names, names ∈ documents ↔
    ((Tree.directory entries).get? names).isSome ∧ isDocument (directory.below names) ∧
      (names = [] ∨ Disk.opens (directory.below names.dropLast))
  /-- They come depth first and by the bytes of their names, each once. -/
  sorted : documents.Pairwise (List.Lex Tree.NameBefore)
  once : documents.Nodup
  /-- Each is told of as it would be alone, up to the first that stops the run. -/
  alike : List.Forall₂ Account.Alike
    ((upTo (stops settings before) (documents.map directory.below)).map
      fun path => (treat settings path before).1) said
  /-- A document stops the run if it passes the check and has a line that cannot be indented. -/
  pages : ∀ names ∈ documents, stops settings before (directory.below names) ↔
    ∃ document, documentOf (directory.below names) (before.readFile (directory.below names)) =
      .ok document ∧ settings.Overruns document
  /-- The files are those that each document alone would have written, in their order, up to the
  first that stops the run. -/
  files : before.writeAll ((upTo (stops settings before) (documents.map directory.below)).filterMap
    (programOf settings before)) = .ok after
  /-- What is new or different is a file with a program's name. -/
  changed : ∀ place, after.tree.entryAt place ≠ before.tree.entryAt place →
    ∃ holder name content, place = holder ++ [name] ∧ IsProgramName name ∧
      after.tree.entryAt place = some (.file content)
  /-- A document that is not written changes nothing. -/
  kept : ∀ names ∈ documents, (treat settings (directory.below names) before).1.isWritten = false →
    (treat settings (directory.below names) before).2 = before
  /-- Where there is no page at all, nothing is written. -/
  wide : Java.Page.maxWidth < settings.options.width → after = before
  notices : outcome.notices =
    if documents.isEmpty then [.noDocuments directory]
    else if (documents.map directory.below).any (stops settings before) then
      said.flatMap Account.notices
    else
      said.flatMap Account.notices ++ [.generated
        (documents.countP fun names => (treat settings (directory.below names) before).1.isWritten)]
  /-- The run succeeds if there is a document and all of them are written. -/
  code : outcome.code =
    if (documents.map directory.below).any (stops settings before) then abortedCode
    else if !documents.isEmpty &&
      documents.all fun names => (treat settings (directory.below names) before).1.isWritten then 0
    else 1
  /-- It comes to the same if directories are listed only on the way, while files are written. -/
  live : (⟨before, [(directory, .directory)], []⟩ : Walker Account).Comes (errand settings)
    ⟨after, [], said⟩

/-- **The documents of a directory do not influence each other.** -/
theorem directory_run_alone (settings : Settings) {directory : Path}
    {entries : List (String × Tree)} (hwell : before.WellFormed)
    (hdirectory : before.lookup? directory = some (.directory entries)) (input : ByteArray) :
    ∃ documents said,
      let result := (Invocation.command ⟨.path directory, settings⟩).runOn input before
      DirectoryRun settings directory entries before documents said result.1 result.2 := by
  obtain ⟨place, hopens, hentries⟩ := Disk.opens_of_lookup? hdirectory
  have hshows : before.Shows directory place entries := .of_get? hwell hopens hentries
  have htree : (Tree.directory entries).WellFormed := hwell.tree.of_get? hentries
  obtain ⟨hsaid, hstopped, hfiles⟩ :=
    play_alike settings hwell (visits_documents hwell hshows) (.refl hwell)
  have hlive := (harmless_errand settings hwell).comes_walk hwell hopens hentries
  change (⟨before, _, _⟩ : Walker Account).Comes (errand settings) (Walker.leaves
    ((errand settings).play (((Tree.directory entries).walk Disk.opens directory).filter isDocument)
      before) [] []) at hlive
  rw [runOn_directory hdirectory, walk_documents]
  rw [walk_documents] at hlive
  generalize (errand settings).play ((documentsBelow directory entries).map directory.below)
    before = report at *
  refine ⟨documentsBelow directory entries, report.said, ?_⟩
  refine
    { mem_documents := fun names => mem_documentsBelow htree
      sorted := pairwise_documentsBelow directory htree
      once := Tree.nodup_of_lex (pairwise_documentsBelow directory htree)
      alike := hsaid
      pages := fun names _ => stops_iff
      files := hfiles
      changed := fun place hplace =>
        isProgramName_of_changed hwell (takes_programs settings hwell _) hfiles hplace
      kept := fun names _ hnot => treat_of_not_written hnot
      wide := ?_
      notices := notices_of_alike hsaid hstopped
      code := code_of_alike hsaid hstopped
      live := ?_ }
  · intro hwide
    have hnone : ∀ paths : List Path, paths.filterMap (programOf settings before) = [] := by
      intro paths
      refine List.filterMap_eq_nil_iff.mpr fun path _ => ?_
      exact programOf_of_not_written (treat_of_wide hwide path before)
    rw [hnone] at hfiles
    exact (Except.ok.inj hfiles).symm
  · unfold Walker.leaves at hlive
    simpa using hlive

/-- A directory with the name of a document, one file in it that is no document, and one that is. -/
def nestedDisk : Disk :=
  { tree := .directory [("d.json", .directory
      [("a.json", .file "x".toUTF8),
        ("sub", .directory [("b.json", .file "\x7b\"program\":[]\x7d".toUTF8)])])] }

theorem wellFormed_nestedDisk : nestedDisk.WellFormed :=
  ⟨.of_check (by decide), rfl⟩

theorem directory_run_alone_nested :
    ∃ entries, nestedDisk.WellFormed ∧
      nestedDisk.lookup? ⟨"d.json/"⟩ = some (.directory entries) ∧
      ∃ documents said,
        let result := (Invocation.command ⟨.path ⟨"d.json/"⟩, {}⟩).runOn .empty nestedDisk
        DirectoryRun {} ⟨"d.json/"⟩ entries nestedDisk documents said result.1 result.2 :=
  ⟨_, wellFormed_nestedDisk, rfl, directory_run_alone {} wellFormed_nestedDisk rfl .empty⟩

/-! ### Paths that are too long -/

/-- The name `d` behind so many steps that lead nowhere. -/
def dotted : Nat → String
  | 0 => "d"
  | n + 1 => "./" ++ dotted n

theorem pieces_dotted (n : Nat) :
    (⟨dotted n⟩ : Path).pieces = List.replicate n ['.'] ++ [['d']] := by
  induction n with
  | zero => rfl
  | succ n ih =>
    have hsplit : (⟨dotted (n + 1)⟩ : Path).pieces = ['.'] :: (⟨dotted n⟩ : Path).pieces := by
      rw [Path.pieces, dotted, String.toList_append]
      exact List.splitOn_append_cons_self ['.'] (dotted n).toList
    rw [hsplit, ih]
    rfl

theorem size_dotted (n : Nat) : (dotted n).utf8ByteSize = 2 * n + 1 := by
  induction n with
  | zero => rfl
  | succ n ih =>
    rw [dotted, String.utf8ByteSize_append, ih]
    have hstep : "./".utf8ByteSize = 2 := rfl
    omega

theorem nul_not_mem_dotted (n : Nat) : '\x00' ∉ (dotted n).toList := by
  induction n with
  | zero => decide
  | succ n ih =>
    rw [dotted, String.toList_append, List.mem_append, not_or]
    exact ⟨by decide, ih⟩

/-- Steps that lead nowhere do not matter but for their length. -/
theorem opens_dotted (n : Nat) {entries : List (String × Tree)} :
    ({ tree := .directory [("d", .directory entries)] } : Disk).Opens ⟨dotted n⟩ ["d"] := by
  have hsteps : Path.steps (⟨dotted n⟩ : Path).pieces = ["d".toList] := by
    rw [pieces_dotted, Path.steps_append]
    simp [Path.steps, Path.isIdle]
  have hstart : ∀ disk : Disk, disk.here = [] → disk.start ⟨dotted n⟩ = [] := by
    intro disk hhere
    unfold Disk.start
    rw [hhere, ite_self]
  unfold Disk.Opens
  rw [hstart _ rfl, ← Disk.reaches_steps, hsteps]
  exact Disk.reaches_name (by decide) rfl rfl

/-- The directory of a document can be listed, but not the one in it that holds the document. -/
theorem runOn_far {path : Path} {name : String} {content : ByteArray}
    (hname : IsName name) (haccepted : Disk.refused? path = none)
    (hlong : Disk.maxPath < path.text.utf8ByteSize + name.utf8ByteSize)
    (hpath : isDocument path = false) (hjoin : isDocument (path.join name) = false)
    (hlookup : disk.lookup? path =
      some (.directory [(name, .directory [("a.json", .file content)])])) (input : ByteArray) :
    (Invocation.command ⟨.path path, settings⟩).runOn input disk =
      ({ code := 1, notices := [.noDocuments path] }, disk) := by
  have hopens : Disk.opens path = true := Option.isNone_iff_eq_none.mpr haccepted
  have hrefused : Disk.opens (path.join name) = false := by
    refine Bool.eq_false_iff.mpr fun hopens => ?_
    have hshort := (Disk.refused?_eq_none_iff.mp (Option.isNone_iff_eq_none.mp hopens)).2
    obtain ⟨slash, htext, -⟩ := Disk.text_join path hname
    rw [htext, String.utf8ByteSize_append, String.utf8ByteSize_append] at hshort
    omega
  have hwalk : ((Tree.directory [(name, .directory [("a.json", .file content)])]).walk
      Disk.opens path).filter isDocument = [] := by
    simp [Tree.walk, Tree.walkEntries, hopens, hrefused, hpath, hjoin]
  rw [runOn_directory hlookup, hwalk]
  rfl

/-- **A document is passed over** if the path of its directory is longer than any that can be
opened. -/
theorem far_document_passed_over :
    let name := String.ofList (List.replicate 100 's')
    let path : Path := ⟨dotted 2000⟩
    let disk : Disk :=
      { tree := .directory [("d", .directory
          [(name, .directory [("a.json", .file "\x7b\"program\":[]\x7d".toUTF8)])])] }
    (disk.tree.get? ["d", name, "a.json"]).isSome ∧ isDocument (path.below [name, "a.json"]) ∧
      (Invocation.command ⟨.path path, {}⟩).runOn .empty disk =
        ({ code := 1, notices := [.noDocuments path] }, disk) := by
  have hsize := size_dotted 2000
  have hnul := nul_not_mem_dotted 2000
  have hpieces := pieces_dotted 2000
  have hopens := @opens_dotted 2000
  generalize dotted 2000 = text at *
  have hname : IsName (String.ofList (List.replicate 100 's')) := by decide
  have haccepted : Disk.refused? ⟨text⟩ = none := by
    refine Disk.refused?_eq_none_iff.mpr ⟨hnul, ?_⟩
    rw [hsize]
    decide
  refine ⟨rfl, ?_, runOn_far hname haccepted ?_ ?_ ?_ (hopens.lookup? haccepted) .empty⟩
  · have hjson : IsName "a.json" := by decide
    rw [Path.below_cons, Path.below_cons, Path.below_nil,
      isDocument_of_last (Disk.pieces_join_name _ hjson) hjson]
    rfl
  · rw [hsize]
    decide
  · unfold isDocument
    rw [Path.extension?_of_last hpieces rfl (by decide)]
    rfl
  · rw [isDocument_of_last (Disk.pieces_join_name _ hname) hname]
    decide

end NetScribe.Run
