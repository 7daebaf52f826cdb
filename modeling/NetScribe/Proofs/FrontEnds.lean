import NetScribe.Proofs.Directories
import NetScribe.Proofs.Values

/-!
# Standard input and files

A document is compiled from standard input, and its program printed, or from a file, and its program
written beside it. Both do the same with the text of the document (`Verdict`): they log its
warnings, and then they stop, they fail, or they have a program. What is shown is told by that
alone, so the two ways agree on the code, on the program, on the log and, but for the name of the
document, on what is said of a failure (`front_ends_agree`).
-/

namespace NetScribe.Run

open Files (Disk Tree Fault)

variable {settings : Settings} {options : Options} {text : String} {disk after : Disk} {path : Path}
variable {json : Bool}

/-! ## What comes of a text -/

/-- What comes of the text of a document. -/
inductive Verdict where
  /-- A line of it cannot be indented. -/
  | stopped
  | failed (failure : Failure)
  | passed (document : Document) (source : Source)

/-- The verdict on a text. -/
def verdictOf (settings : Settings) (text : String) : Verdict :=
  match Document.ofText text with
  | .error fault => .failed (.document fault)
  | .ok document =>
    if settings.aborts document then .stopped
    else
      match settings.compile document with
      | .error failure => .failed failure
      | .ok source => .passed document source

theorem verdictOf_cases (settings : Settings) (text : String) :
    (∃ fault, Document.ofText text = .error fault ∧
      verdictOf settings text = .failed (.document fault)) ∨
    (∃ document, Document.ofText text = .ok document ∧ settings.aborts document ∧
      verdictOf settings text = .stopped) ∨
    (∃ document failure, Document.ofText text = .ok document ∧ ¬ settings.aborts document ∧
      settings.compile document = .error failure ∧
      verdictOf settings text = .failed failure) ∨
    ∃ document source, Document.ofText text = .ok document ∧ ¬ settings.aborts document ∧
      settings.compile document = .ok source ∧
      verdictOf settings text = .passed document source := by
  unfold verdictOf
  cases Document.ofText text with
  | error fault => exact Or.inl ⟨fault, rfl, rfl⟩
  | ok document =>
    right
    dsimp only
    by_cases haborts : settings.aborts document
    · exact Or.inl ⟨document, rfl, haborts, if_pos haborts⟩
    · right
      rw [if_neg haborts]
      cases hcompile : settings.compile document with
      | error failure => exact Or.inl ⟨document, failure, rfl, haborts, hcompile, rfl⟩
      | ok source => exact Or.inr ⟨document, source, rfl, haborts, hcompile, rfl⟩

/-- What is logged of a text: the warnings of a document that passes the check. -/
def logOfText (settings : Settings) (text : String) : List Warning :=
  match Document.ofText text with
  | .error _ => []
  | .ok document => settings.log document

/-- How a run on standard input ends. -/
def Verdict.printed (json : Bool) (log : List Warning) : Verdict → Outcome
  | .stopped => { code := abortedCode, notices := log.map .logged ++ [.aborted] }
  | .failed failure => { code := 1, notices := log.map .logged ++ [.failed "<stdin>" failure] }
  | .passed _ source =>
    { code := 0, output := if json then (sourceJson source).text ++ "\n" else source.code
      notices := log.map .logged }

theorem generateInput_eq (settings : Settings) (json : Bool) (text : String) :
    generateInput settings json text.toUTF8 =
      (verdictOf settings text).printed json (logOfText settings text) := by
  unfold generateInput verdictOf logOfText
  rw [Disk.decode_toUTF8]
  dsimp only
  cases Document.ofText text with
  | error fault => rfl
  | ok document =>
    dsimp only
    split
    · rfl
    · cases settings.compile document <;> rfl

theorem runOn_standard (settings : Settings) (json : Bool) (text : String) (disk : Disk) :
    (Invocation.command ⟨.standard json, settings⟩).runOn text.toUTF8 disk =
      ((verdictOf settings text).printed json (logOfText settings text), disk) := by
  rw [← generateInput_eq]
  rfl

/-! ## A document in a file -/

theorem readFile_of_lookup? {content : ByteArray} (h : disk.lookup? path = some (.file content)) :
    disk.readFile path = .ok content := by
  unfold Disk.lookup? at h
  unfold Disk.readFile
  split at h
  · next place hplace =>
    rw [hplace]
    simp only [h]
  · cases h

theorem runOn_file {content : ByteArray} (h : disk.lookup? path = some (.file content))
    (hdocument : isDocument path) (input : ByteArray) :
    (Invocation.command ⟨.path path, settings⟩).runOn input disk =
      let treated := treat settings path disk
      (if treated.1.isWritten then { code := 0, notices := treated.1.notices ++ [.generated 1] }
        else
          { code := if treated.1.isAborted then abortedCode else 1, notices := treated.1.notices },
        treated.2) := by
  change (generatePath settings path : StateM Disk Outcome) disk = _
  unfold generatePath
  rw [Disk.bind_run, Disk.kind_run, h]
  simp only [Option.map_some, Tree.kind, hdocument, if_true]
  rw [Disk.bind_run]
  change (if (treat settings path disk).1.isWritten then _ else _ : StateM Disk Outcome)
    (treat settings path disk).2 = _
  split <;> rfl

/-- How a run on a file ends. -/
def Verdict.treated (path : Path) (disk : Disk) (log : List Warning) : Verdict → Account × Disk
  | .stopped => (⟨log, .aborted⟩, disk)
  | .failed failure => (⟨log, .failed path.text failure⟩, disk)
  | .passed document source =>
    match disk.writeFile (outputPath path document) source.code.toUTF8 with
    | .error fault => (⟨log, .writeFailed (outputPath path document) fault⟩, disk)
    | .ok after => (⟨log, .written (outputPath path document) source.warnings.length⟩, after)

theorem logAt_eq (settings : Settings) (hread : disk.readFile path = .ok text.toUTF8) :
    logAt settings path disk = logOfText settings text := by
  have hdocument : documentOf path (disk.readFile path) = Document.ofText text := by
    rw [hread, documentOf_toUTF8]
  unfold logAt logOf logOfText
  cases htext : Document.ofText text with
  | error fault => simp only [hdocument, htext]
  | ok document => simp only [hdocument, htext]

/-- **A file is treated by the verdict on its text.** -/
theorem treat_eq_treated (settings : Settings) (hread : disk.readFile path = .ok text.toUTF8) :
    treat settings path disk =
      (verdictOf settings text).treated path disk (logOfText settings text) := by
  have hdocument := documentOf_toUTF8 path text
  rw [← hread] at hdocument
  rw [← logAt_eq settings hread]
  rcases verdictOf_cases settings text with ⟨fault, htext, hverdict⟩ | ⟨document, htext, haborts,
    hverdict⟩ | ⟨document, failure, htext, hgoes, hcompile, hverdict⟩ | ⟨document, source, htext,
    hgoes, hcompile, hverdict⟩ <;> rw [hverdict] <;> rw [htext] at hdocument
  · refine treat_of_error ?_ ?_
    · simp [abortsAt, hdocument]
    · simp [targetOf, hdocument]
  · refine treat_of_aborts ?_
    simpa [abortsAt, hdocument] using haborts
  · refine treat_of_error ?_ ?_
    · simpa [abortsAt, hdocument] using hgoes
    · simp [targetOf, hdocument, hcompile]
  · have hgoes' : ¬ abortsAt settings path (disk.readFile path) := by
      simpa [abortsAt, hdocument] using hgoes
    have htarget : targetOf settings path (disk.readFile path) =
        .ok ⟨outputPath path document, source⟩ := by
      simp [targetOf, hdocument, hcompile]
    unfold Verdict.treated
    dsimp only
    cases hwrite : disk.writeFile (outputPath path document) source.code.toUTF8 with
    | error fault => exact treat_of_unwritten hgoes' htarget hwrite
    | ok after => exact treat_of_written hgoes' htarget hwrite

theorem runOn_of_passed {document : Document} {source : Source} {input : ByteArray}
    (hfile : disk.lookup? path = some (.file text.toUTF8)) (hdocument : isDocument path)
    (hverdict : verdictOf settings text = .passed document source)
    (hwrite : disk.writeFile (outputPath path document) source.code.toUTF8 = .ok after) :
    (Invocation.command ⟨.path path, settings⟩).runOn input disk =
      ({ code := 0
         notices := (logOfText settings text).map .logged ++
           [.written (outputPath path document) source.warnings.length, .generated 1] },
        after) := by
  rw [runOn_file hfile hdocument, treat_eq_treated settings (readFile_of_lookup? hfile), hverdict]
  unfold Verdict.treated
  dsimp only
  rw [hwrite]
  simp [Account.isWritten, Notice.isWritten, Account.notices]

/-! ## What is shown -/

/-- A voice as the clock goes on. -/
def Voice.at (voice : Voice) (clock : Nat → String) (n : Nat) : Voice :=
  { voice with time := clock n }

/-- A log in words. -/
def Voice.logText (voice : Voice) (clock : Nat → String) (log : List Warning) : String :=
  String.join (log.mapIdx fun n warning => voice.log (clock n) warning)

theorem text_logged (voice : Voice) (clock : Nat → String) (n : Nat) (warning : Warning) :
    (Notice.logged warning).text (voice.at clock n) = voice.log (clock n) warning := rfl

theorem text_failed (voice : Voice) (clock : Nat → String) (n : Nat) (file : String)
    (failure : Failure) :
    (Notice.failed file failure).text (voice.at clock n) =
      (diagnosticAt voice.column failure).render voice.palette file := rfl

/-- What is said of a document: first its log, and then how it went. -/
theorem errorText_append (voice : Voice) (clock : Nat → String) {outcome : Outcome}
    {log : List Warning} {notice : Notice} (h : outcome.notices = log.map .logged ++ [notice]) :
    outcome.errorText (voice.at clock) =
      voice.logText clock log ++ notice.text (voice.at clock log.length) := by
  have hlog : (log.map Notice.logged).mapIdx (fun n notice => notice.text (voice.at clock n)) =
      log.mapIdx fun n warning => voice.log (clock n) warning := by
    refine List.ext_getElem (by simp) fun n _ _ => ?_
    rw [List.getElem_mapIdx, List.getElem_map, text_logged, List.getElem_mapIdx]
  rw [Outcome.errorText, h, List.mapIdx_append, String.join_append, hlog, List.length_map,
    List.mapIdx_cons, List.mapIdx_nil, String.join_cons, Nat.zero_add, Voice.logText]
  exact congrArg _ (String.append_empty)

/-- **A failure is shown for a file by its name**, once, between texts that do not depend on it. -/
theorem render_eq (palette : Palette) (diagnostic : Diagnostic) :
    ∃ front back, ∀ file, diagnostic.render palette file = front ++ file ++ back := by
  refine ⟨"\n" ++ " " ++ palette.place ++ "file:" ++ palette.reset ++ " ", ?_⟩
  apply Exists.intro
  intro file
  unfold Diagnostic.render
  simp only [String.append_assoc]
  rfl

theorem readable_sourceJson (source : Source) : (sourceJson source).Readable := by
  refine .object fun member hmember => ?_
  simp only [List.mem_cons, List.not_mem_nil, or_false] at hmember
  rcases hmember with rfl | rfl | rfl
  · exact .string _
  · refine .array fun item hitem => ?_
    obtain ⟨name, -, rfl⟩ := List.mem_map.mp hitem
    exact .string name
  · refine .array fun item hitem => ?_
    obtain ⟨warning, -, rfl⟩ := List.mem_map.mp hitem
    refine .object fun member hmember => ?_
    simp only [List.mem_cons, List.not_mem_nil, or_false] at hmember
    rcases hmember with rfl | rfl
    · exact .string _
    · exact .string _

theorem depth_sourceJson (source : Source) : (sourceJson source).depth ≤ 3 := by
  have hstrings : ∀ names : List String, Json.depthItems (names.map .string) = 0 := by
    intro names
    induction names with
    | nil => rfl
    | cons name names ih =>
      rw [List.map_cons, Json.depthItems, ih]
      rfl
  have hwarnings : ∀ warnings : List Warning,
      Json.depthItems (warnings.map warningJson) ≤ 1 := by
    intro warnings
    induction warnings with
    | nil => exact Nat.zero_le 1
    | cons warning warnings ih =>
      rw [List.map_cons, Json.depthItems]
      exact Nat.max_le.mpr ⟨Nat.le_refl 1, ih⟩
  have hwarnings := hwarnings source.warnings
  simp only [sourceJson, Json.depth, Json.depthMembers, hstrings]
  omega

/-- **The printed JSON is read back.** -/
theorem value_sourceJson (source : Source) :
    Json.value 127 (sourceJson source).text.toList = .ok (sourceJson source, []) := by
  have hdepth := depth_sourceJson source
  have hread := Json.reads_value (readable_sourceJson source) 127 (by omega) Json.ends_nil
  rw [List.append_nil] at hread
  rw [Json.text, String.toList_ofList]
  exact hread

/-! ## Warnings as failures -/

theorem verdictOf_eq_passed {document : Document} {source : Source} :
    verdictOf settings text = .passed document source ↔
      Document.ofText text = .ok document ∧ ¬ settings.aborts document ∧
        settings.compile document = .ok source := by
  constructor
  · intro h
    rcases verdictOf_cases settings text with ⟨_, -, hverdict⟩ | ⟨_, -, -, hverdict⟩ |
      ⟨_, _, -, -, -, hverdict⟩ | ⟨document', source', htext, hgoes, hcompile, hverdict⟩
    · rw [hverdict] at h
      cases h
    · rw [hverdict] at h
      cases h
    · rw [hverdict] at h
      cases h
    · rw [hverdict] at h
      obtain ⟨rfl, rfl⟩ := Verdict.passed.inj h
      exact ⟨htext, hgoes, hcompile⟩
  · rintro ⟨htext, hgoes, hcompile⟩
    simp [verdictOf, htext, hgoes, hcompile]

theorem compile_strict {document : Document} {source : Source} :
    Settings.compile ⟨options, true⟩ document = .ok source ↔
      Settings.compile ⟨options, false⟩ document = .ok source ∧ source.warnings = [] := by
  unfold Settings.compile
  cases (compile document.resources.loader options document.program).result with
  | error failure => simp
  | ok found =>
    cases hwarnings : found.warnings with
    | nil =>
      simp only [hwarnings, List.isEmpty_nil, Bool.not_true, Bool.and_false, Bool.false_eq_true,
        if_false]
      constructor
      · intro h
        obtain rfl := Except.ok.inj h
        exact ⟨rfl, hwarnings⟩
      · exact And.left
    | cons warning warnings =>
      simp only [hwarnings, List.isEmpty_cons, Bool.not_false, Bool.and_true, if_true, reduceCtorEq,
        false_iff, not_and, Bool.false_eq_true, if_false]
      intro h hnone
      obtain rfl := Except.ok.inj h
      rw [hwarnings] at hnone
      cases hnone

/-- **A strict verdict passes** where the other one does without warnings. -/
theorem verdictOf_strict {document : Document} {source : Source} :
    verdictOf ⟨options, true⟩ text = .passed document source ↔
      verdictOf ⟨options, false⟩ text = .passed document source ∧ source.warnings = [] := by
  rw [verdictOf_eq_passed, verdictOf_eq_passed, compile_strict]
  constructor
  · rintro ⟨htext, hgoes, hcompile, hnone⟩
    exact ⟨⟨htext, hgoes, hcompile⟩, hnone⟩
  · rintro ⟨⟨htext, hgoes, hcompile⟩, hnone⟩
    exact ⟨htext, hgoes, hcompile, hnone⟩

/-! ## Both ways -/

/-- What is logged of a document with a program is what the program is returned with. -/
theorem log_of_compile {document : Document} {source : Source}
    (h : settings.compile document = .ok source) : settings.log document = source.warnings := by
  have hok : (compile document.resources.loader settings.options document.program).result =
      .ok source := by
    unfold Settings.compile at h
    split at h
    · cases h
    · next found hfound =>
      split at h
      · cases h
      · rw [hfound, Except.ok.inj h]
  obtain ⟨hmains, hwarnings, -⟩ := compile_eq_ok hok
  unfold Settings.log
  rw [Survey.check_standard, if_neg (by omega), hwarnings]

theorem logOfText_of_passed {document : Document} {source : Source}
    (h : verdictOf settings text = .passed document source) :
    logOfText settings text = source.warnings := by
  obtain ⟨htext, -, hcompile⟩ := verdictOf_eq_passed.mp h
  unfold logOfText
  rw [htext]
  exact log_of_compile hcompile

theorem verdictOf_eq_stopped :
    verdictOf settings text = .stopped ↔
      ∃ document, Document.ofText text = .ok document ∧ settings.Overruns document := by
  simp only [← aborts_iff]
  constructor
  · intro h
    rcases verdictOf_cases settings text with ⟨_, -, hverdict⟩ | ⟨document, htext, haborts, -⟩ |
      ⟨_, _, -, -, -, hverdict⟩ | ⟨_, _, -, -, -, hverdict⟩
    · rw [hverdict] at h
      cases h
    · exact ⟨document, htext, haborts⟩
    · rw [hverdict] at h
      cases h
    · rw [hverdict] at h
      cases h
  · rintro ⟨document, htext, haborts⟩
    simp [verdictOf, htext, haborts]

/-- How a run on standard input and one on a file with the same text agree. -/
structure SameVerdict (settings : Settings) (json : Bool) (text : String) (path : Path)
    (disk : Disk) (log : List Warning) (printed written : Outcome × Disk) : Prop where
  code : printed.1.code = written.1.code
  /-- Nothing is written from standard input. -/
  untouched : printed.2 = disk
  ends : printed.1.code = 0 ∨ printed.1.code = 1 ∨ printed.1.code = abortedCode
  stops : printed.1.code = abortedCode ↔
    ∃ document, Document.ofText text = .ok document ∧ settings.Overruns document
  /-- What is printed is what the file holds that is written. -/
  success : printed.1.code = 0 → ∃ output code,
    printed.1.notices = log.map .logged ∧
      written.1.notices = log.map .logged ++ [.written output log.length, .generated 1] ∧
      disk.writeFile output code.toUTF8 = .ok written.2 ∧
      written.2.readFile output = .ok code.toUTF8 ∧
      if json then ∃ line members, printed.1.output = line ++ "\n" ∧
        Json.value 127 line.toList = .ok (.object members, []) ∧
        members.lookup "code" = some (.string code) ∧
        members.lookup "warnings" = some (.array (log.map warningJson))
      else printed.1.output = code
  /-- Where nothing is printed, nothing is written either. -/
  failure : printed.1.code ≠ 0 → printed.1.output = "" ∧ written.1.output = "" ∧ written.2 = disk
  /-- A stop is told in the same words. -/
  stopped : printed.1.code = abortedCode →
    printed.1.notices = log.map .logged ++ [.aborted] ∧ written.1.notices = printed.1.notices
  /-- So is a failure, but for the name of the document, -/
  failed : printed.1.code = 1 → ∃ failure,
    printed.1.notices = log.map .logged ++ [.failed "<stdin>" failure] ∧
      written.1.notices = log.map .logged ++ [.failed path.text failure]
  /-- and in words the two differ in that name and in the times of the log. -/
  errors : printed.1.code = 1 → ∀ voice : Voice, ∃ front back, ∀ clock clock',
    printed.1.errorText (voice.at clock) =
        voice.logText clock log ++ (front ++ "<stdin>" ++ back) ∧
      written.1.errorText (voice.at clock') =
        voice.logText clock' log ++ (front ++ path.text ++ back)

/-- A file that a document was written to holds its program. -/
theorem readFile_of_output (hwell : disk.WellFormed) {document : Document} {content : ByteArray}
    (h : disk.writeFile (outputPath path document) content = .ok after) :
    after.readFile (outputPath path document) = .ok content := by
  obtain ⟨holder, name, htakes, -⟩ := takes_outputPath hwell h
  rw [htakes.writeFile] at h
  obtain rfl := Except.ok.inj h
  exact htakes.readFile hwell content

/-- **The text decides**, wherever it comes from. -/
theorem sameVerdict (settings : Settings) (json : Bool) {input : ByteArray}
    (hwell : disk.WellFormed) (hdocument : isDocument path)
    (hfile : disk.lookup? path = some (.file text.toUTF8))
    (hwritable : ∀ document content, Document.ofText text = .ok document →
      ∃ after, disk.writeFile (outputPath path document) content = .ok after) :
    SameVerdict settings json text path disk (logOfText settings text)
      ((Invocation.command ⟨.standard json, settings⟩).runOn text.toUTF8 disk)
      ((Invocation.command ⟨.path path, settings⟩).runOn input disk) := by
  have htreat := treat_eq_treated settings (readFile_of_lookup? hfile)
  have hstops := @verdictOf_eq_stopped settings text
  rw [runOn_standard]
  cases hverdict : verdictOf settings text with
  | stopped =>
    rw [runOn_file hfile hdocument, htreat, hverdict]
    exact
      { code := rfl
        untouched := rfl
        ends := Or.inr (Or.inr rfl)
        stops := iff_of_true rfl (hstops.mp hverdict)
        success := fun hcode => absurd hcode (show abortedCode ≠ 0 by decide)
        failure := fun _ => ⟨rfl, rfl, rfl⟩
        stopped := fun _ => ⟨rfl, rfl⟩
        failed := fun hcode => absurd hcode (show abortedCode ≠ 1 by decide)
        errors := fun hcode => absurd hcode (show abortedCode ≠ 1 by decide) }
  | failed failure =>
    rw [hverdict] at hstops
    rw [runOn_file hfile hdocument, htreat, hverdict]
    refine
      { code := rfl
        untouched := rfl
        ends := Or.inr (Or.inl rfl)
        stops := iff_of_false (show 1 ≠ abortedCode by decide)
          fun h => Verdict.noConfusion (hstops.mpr h)
        success := fun hcode => absurd hcode (show 1 ≠ 0 by decide)
        failure := fun _ => ⟨rfl, rfl, rfl⟩
        stopped := fun hcode => absurd hcode (show 1 ≠ abortedCode by decide)
        failed := fun _ => ⟨failure, rfl, rfl⟩
        errors := fun _ voice => ?_ }
    obtain ⟨front, back, hrender⟩ := render_eq voice.palette (diagnosticAt voice.column failure)
    refine ⟨front, back, fun clock clock' => ⟨?_, ?_⟩⟩
    · rw [← hrender, ← text_failed voice clock (logOfText settings text).length]
      exact errorText_append voice clock rfl
    · rw [← hrender, ← text_failed voice clock' (logOfText settings text).length]
      exact errorText_append voice clock' rfl
  | passed document source =>
    rw [hverdict] at hstops
    obtain ⟨htext, -, -⟩ := verdictOf_eq_passed.mp hverdict
    obtain ⟨after, hwrite⟩ := hwritable document source.code.toUTF8 htext
    rw [runOn_of_passed hfile hdocument hverdict hwrite, logOfText_of_passed hverdict]
    refine
      { code := rfl
        untouched := rfl
        ends := Or.inl rfl
        stops := iff_of_false (show 0 ≠ abortedCode by decide)
          fun h => Verdict.noConfusion (hstops.mpr h)
        success := fun _ =>
          ⟨_, source.code, rfl, rfl, hwrite, readFile_of_output hwell hwrite, ?_⟩
        failure := fun hcode => absurd rfl hcode
        stopped := fun hcode => absurd hcode (show 0 ≠ abortedCode by decide)
        failed := fun hcode => absurd hcode (show 0 ≠ 1 by decide)
        errors := fun hcode => absurd hcode (show 0 ≠ 1 by decide) }
    cases json with
    | false => rfl
    | true => exact ⟨_, _, rfl, value_sourceJson source, rfl, rfl⟩

theorem printed_code_eq_zero {verdict : Verdict} {log : List Warning} :
    (verdict.printed json log).code = 0 ↔
      ∃ document source, verdict = .passed document source := by
  cases verdict with
  | stopped => simp [Verdict.printed, abortedCode]
  | failed failure => simp [Verdict.printed]
  | passed document source => simp [Verdict.printed]

/-- **Both front ends agree.** From standard input and from a file, a document gives the same code,
the same log and the same program, and fails in the same words; strictly, it succeeds if it has no
warnings otherwise, and then all is the same. -/
theorem front_ends_agree (options : Options) (text : String) (json : Bool) (hwell : disk.WellFormed)
    (hdocument : isDocument path) (hfile : disk.lookup? path = some (.file text.toUTF8))
    (hwritable : ∀ document content, Document.ofText text = .ok document →
      ∃ after, disk.writeFile (outputPath path document) content = .ok after)
    (input : ByteArray) :
    let printed (strict : Bool) :=
      (Invocation.command ⟨.standard json, ⟨options, strict⟩⟩).runOn text.toUTF8 disk
    let written (strict : Bool) :=
      (Invocation.command ⟨.path path, ⟨options, strict⟩⟩).runOn input disk
    (∀ strict, SameVerdict ⟨options, strict⟩ json text path disk
        (logOfText ⟨options, strict⟩ text) (printed strict) (written strict)) ∧
      ((printed true).1.code = 0 ↔ (printed false).1.code = 0 ∧
        ∃ output, (written false).1.notices = [.written output 0, .generated 1]) ∧
      ((printed true).1.code = 0 →
        printed true = printed false ∧ written true = written false) := by
  intro printed written
  have hprinted : ∀ strict, printed strict =
      ((verdictOf ⟨options, strict⟩ text).printed json (logOfText ⟨options, strict⟩ text),
        disk) := by
    intro strict
    exact runOn_standard ⟨options, strict⟩ json text disk
  refine ⟨fun strict =>
    sameVerdict ⟨options, strict⟩ json hwell hdocument hfile hwritable, ?_, ?_⟩
  · rw [hprinted, hprinted, printed_code_eq_zero, printed_code_eq_zero]
    constructor
    · rintro ⟨document, source, hverdict⟩
      obtain ⟨hverdict, hnone⟩ := verdictOf_strict.mp hverdict
      obtain ⟨after, hwrite⟩ := hwritable document source.code.toUTF8
        (verdictOf_eq_passed.mp hverdict).1
      have hrun : written false = _ := runOn_of_passed hfile hdocument hverdict hwrite
      refine ⟨⟨document, source, hverdict⟩, outputPath path document, ?_⟩
      rw [hrun, logOfText_of_passed hverdict, hnone]
      rfl
    · rintro ⟨⟨document, source, hverdict⟩, output, hnotices⟩
      obtain ⟨after, hwrite⟩ := hwritable document source.code.toUTF8
        (verdictOf_eq_passed.mp hverdict).1
      have hrun : written false = _ := runOn_of_passed hfile hdocument hverdict hwrite
      rw [hrun, logOfText_of_passed hverdict] at hnotices
      have hcount : source.warnings.length = 0 := by
        have hlength := congrArg List.length hnotices
        rw [List.length_append, List.length_map] at hlength
        exact Nat.add_eq_right.mp hlength
      exact ⟨document, source,
        verdictOf_strict.mpr ⟨hverdict, List.length_eq_zero_iff.mp hcount⟩⟩
  · intro hcode
    rw [hprinted, printed_code_eq_zero] at hcode
    obtain ⟨document, source, hverdict⟩ := hcode
    have hverdict' := (verdictOf_strict.mp hverdict).1
    obtain ⟨after, hwrite⟩ := hwritable document source.code.toUTF8
      (verdictOf_eq_passed.mp hverdict).1
    have hstrict : written true = _ := runOn_of_passed hfile hdocument hverdict hwrite
    have hlax : written false = _ := runOn_of_passed hfile hdocument hverdict' hwrite
    refine ⟨?_, hstrict.trans hlax.symm⟩
    rw [hprinted, hprinted, hverdict, hverdict']
    rfl

/-- A document with a warning: a constant of a type that no literal is known for. -/
def warnedText : String :=
  "\x7b\"program\":[\x7b\"type\":\"const\",\"name\":\"C\",\"type_name\":\"T\",\"value\":\"v\"\x7d]\x7d"

def warnedDisk : Disk := { tree := .directory [("f.json", .file warnedText.toUTF8)] }

theorem wellFormed_warnedDisk : warnedDisk.WellFormed :=
  ⟨.of_check (by decide), rfl⟩

/-- Its program has no class, its warning is logged, and under strict settings it fails. -/
theorem exists_warned :
    ∃ document failure, Document.ofText warnedText = .ok document ∧
      outputPath ⟨"f.json"⟩ document = ⟨"f.java"⟩ ∧
      Settings.log ⟨{}, true⟩ document = [⟨⟨["C"]⟩, .quotedConst "T"⟩] ∧
      ¬ Settings.aborts ⟨{}, true⟩ document ∧
      Settings.compile ⟨{}, true⟩ document = .error failure := by
  have hfacts : (Document.ofText warnedText).toOption.map (fun document =>
      (outputPath ⟨"f.json"⟩ document, Settings.log ⟨{}, true⟩ document,
        Settings.aborts ⟨{}, true⟩ document, (Settings.compile ⟨{}, true⟩ document).isOk)) =
      some (⟨"f.java"⟩, [⟨⟨["C"]⟩, .quotedConst "T"⟩], false, false) := by decide +kernel
  obtain ⟨document, htext, hparts⟩ := Option.map_eq_some_iff.mp hfacts
  obtain ⟨houtput, hothers⟩ := Prod.mk.inj hparts
  obtain ⟨hlog, hends⟩ := Prod.mk.inj hothers
  obtain ⟨hgoes, hfails⟩ := Prod.mk.inj hends
  cases hcompile : Settings.compile ⟨{}, true⟩ document with
  | ok source =>
    rw [hcompile] at hfails
    cases hfails
  | error failure =>
    exact ⟨document, failure, eq_ok_of_toOption htext, houtput, hlog, Bool.eq_false_iff.mp hgoes,
      hcompile⟩

theorem writeFile_warnedDisk (document : Document) (content : ByteArray)
    (h : Document.ofText warnedText = .ok document) :
    ∃ after, warnedDisk.writeFile (outputPath ⟨"f.json"⟩ document) content = .ok after := by
  obtain ⟨document', -, htext, houtput, -⟩ := exists_warned
  obtain rfl : document' = document := Except.ok.inj (htext.symm.trans h)
  rw [houtput]
  exact ⟨_, rfl⟩

theorem logOfText_warned :
    logOfText ⟨{}, true⟩ warnedText = [⟨⟨["C"]⟩, .quotedConst "T"⟩] := by
  obtain ⟨document, -, htext, -, hlog, -⟩ := exists_warned
  unfold logOfText
  rw [htext]
  exact hlog

theorem code_warned (disk : Disk) :
    ((Invocation.command ⟨.standard true, ⟨{}, true⟩⟩).runOn warnedText.toUTF8 disk).1.code =
      1 := by
  obtain ⟨document, failure, htext, -, -, hgoes, hcompile⟩ := exists_warned
  have hverdict : verdictOf ⟨{}, true⟩ warnedText = .failed failure := by
    simp [verdictOf, htext, hgoes, hcompile]
  rw [runOn_standard, hverdict]
  rfl

theorem front_ends_agree_warned :
    warnedDisk.WellFormed ∧ isDocument ⟨"f.json"⟩ ∧
      warnedDisk.lookup? ⟨"f.json"⟩ = some (.file warnedText.toUTF8) ∧
      (∀ document content, Document.ofText warnedText = .ok document →
        ∃ after, warnedDisk.writeFile (outputPath ⟨"f.json"⟩ document) content = .ok after) ∧
      let printed (strict : Bool) :=
        (Invocation.command ⟨.standard true, ⟨{}, strict⟩⟩).runOn warnedText.toUTF8 warnedDisk
      let written (strict : Bool) :=
        (Invocation.command ⟨.path ⟨"f.json"⟩, ⟨{}, strict⟩⟩).runOn .empty warnedDisk
      logOfText ⟨{}, true⟩ warnedText = [⟨⟨["C"]⟩, .quotedConst "T"⟩] ∧
        (printed true).1.code = 1 ∧
        (∀ strict, SameVerdict ⟨{}, strict⟩ true warnedText ⟨"f.json"⟩ warnedDisk
          (logOfText ⟨{}, strict⟩ warnedText) (printed strict) (written strict)) ∧
        ((printed true).1.code = 0 ↔ (printed false).1.code = 0 ∧
          ∃ output, (written false).1.notices = [.written output 0, .generated 1]) ∧
        ((printed true).1.code = 0 →
          printed true = printed false ∧ written true = written false) :=
  ⟨wellFormed_warnedDisk, by decide, rfl, writeFile_warnedDisk, logOfText_warned,
    code_warned warnedDisk,
    front_ends_agree {} warnedText true wellFormed_warnedDisk (by decide) rfl
      writeFile_warnedDisk .empty⟩

/-- **A run may end in another way**: where depths are wider than any page, a document that passes
the check stops it, from standard input as from a file. -/
theorem wide_document_stops_run :
    let text := "\x7b\"program\":[]\x7d"
    let settings : Settings := { options := { width := 9223372036854775808 } }
    let disk : Disk := { tree := .directory [("f.json", .file text.toUTF8)] }
    ((Invocation.command ⟨.standard false, settings⟩).runOn text.toUTF8 disk).1.code = 101 ∧
      ((Invocation.command ⟨.path ⟨"f.json"⟩, settings⟩).runOn .empty disk).1.code = 101 := by
  have hverdict : verdictOf { options := { width := 9223372036854775808 } }
      "\x7b\"program\":[]\x7d" = .stopped := by rfl
  intro text settings disk
  have hfile : disk.lookup? ⟨"f.json"⟩ = some (.file text.toUTF8) := rfl
  rw [runOn_standard, runOn_file hfile (by decide),
    treat_eq_treated settings (readFile_of_lookup? hfile), hverdict]
  exact ⟨rfl, rfl⟩

end NetScribe.Run
