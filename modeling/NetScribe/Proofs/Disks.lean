import NetScribe.Files.Operations
import NetScribe.Proofs.FileTrees

/-!
# Following paths on a disk

A path that ends in a name leads into a directory, and everything that is done under it is done to
the entry of that name there (`Disk.Leads`): reading, writing and removing are told by what is seen
at one place. The way to the directory reads only where directories are, so a path leads to the same
place on any two disks with the same directories (`Leads.congr`), whatever their files hold.
-/

namespace NetScribe.Files.Disk

open NetScribe.Path (steps isIdle)

variable {disk before after : Disk} {path : Path} {place target holder : List String}
variable {name : String} {content : ByteArray}

/-- A disk whose tree is in order and whose working directory is there. -/
structure WellFormed (disk : Disk) : Prop where
  tree : disk.tree.WellFormed
  here : disk.tree.entryAt disk.here = some .directory

/-- The place a path is followed from is a directory. -/
theorem WellFormed.start (h : disk.WellFormed) (path : Path) :
    disk.tree.entryAt (disk.start path) = some .directory := by
  unfold Disk.start
  split
  · have htop : disk.tree.entryAt ([] ++ disk.here) = some .directory := h.here
    exact Tree.entryAt_of_append htop
  · exact h.here

theorem refused?_eq_none_iff :
    refused? path = none ↔
      '\x00' ∉ path.text.toList ∧ path.text.utf8ByteSize ≤ maxPath := by
  unfold refused?
  by_cases hnul : '\x00' ∈ path.text.toList
  · simp [hnul]
  · by_cases hlong : maxPath < path.text.utf8ByteSize
    · simp [hnul, hlong]
    · simp [hnul, hlong, Nat.not_lt.mp hlong]

/-- What is taken with more letters behind it is taken without them. -/
theorem refused?_of_append {other : Path} {letters : String}
    (htext : other.text = path.text ++ letters) (h : refused? other = none) :
    refused? path = none := by
  obtain ⟨hnul, hlong⟩ := refused?_eq_none_iff.mp h
  rw [htext, String.utf8ByteSize_append] at hlong
  rw [htext, String.toList_append, List.mem_append, not_or] at hnul
  exact refused?_eq_none_iff.mpr ⟨hnul.1, by omega⟩

/-! ## Ways to directories -/

/-- What following one piece does in a directory. -/
theorem followPiece_eq (h : disk.tree.entryAt place = some .directory) (piece : List Char) :
    disk.followPiece place piece =
      if isIdle piece then .ok place
      else if piece = ['.', '.'] then .ok place.dropLast
      else if maxName < (String.ofList piece).utf8ByteSize then .error .nameTooLong
      else if (disk.tree.entryAt (place ++ [String.ofList piece])).isSome then
        .ok (place ++ [String.ofList piece])
      else .error .notFound := by
  obtain ⟨entries, hentries⟩ := Tree.entryAt_eq_directory.mp h
  have hchild : ((Tree.directory entries).child? (String.ofList piece)).isSome =
      (disk.tree.entryAt (place ++ [String.ofList piece])).isSome := by
    unfold Tree.entryAt
    rw [Tree.get?_append, hentries]
    change _ = Option.isSome (Option.map Tree.entry
      (((Tree.directory entries).child? (String.ofList piece)).bind some))
    cases (Tree.directory entries).child? (String.ofList piece) <;> rfl
  unfold followPiece
  rw [hentries]
  simp only [Tree.isDirectory, Bool.not_true, Bool.false_eq_true, if_false, hchild]

/-- A piece is followed from directories only. -/
theorem entryAt_of_followPiece {piece : List Char} (h : disk.followPiece place piece = .ok target) :
    disk.tree.entryAt place = some .directory := by
  unfold followPiece at h
  split at h
  · cases h
  · next found hfound =>
    cases found with
    | file content => cases h
    | directory entries => exact Tree.entryAt_eq_directory.mpr ⟨entries, hfound⟩

/-- Pieces lead from a place to a directory. -/
def Reaches (disk : Disk) (place : List String) (pieces : List (List Char))
    (target : List String) : Prop :=
  disk.followPieces place pieces = .ok target ∧ disk.tree.entryAt target = some .directory

theorem followPieces_cons (place : List String) (piece : List Char) (rest : List (List Char)) :
    disk.followPieces place (piece :: rest) =
      disk.followPiece place piece >>= fun next => disk.followPieces next rest :=
  List.foldlM_cons

theorem reaches_nil : disk.Reaches place [] target ↔
    target = place ∧ disk.tree.entryAt place = some .directory := by
  unfold Reaches
  constructor
  · rintro ⟨hfollow, htarget⟩
    obtain rfl : place = target := Except.ok.inj hfollow
    exact ⟨rfl, htarget⟩
  · rintro ⟨rfl, hplace⟩
    exact ⟨rfl, hplace⟩

theorem reaches_cons {piece : List Char} {rest : List (List Char)} :
    disk.Reaches place (piece :: rest) target ↔
      ∃ next, disk.followPiece place piece = .ok next ∧ disk.Reaches next rest target := by
  unfold Reaches
  rw [followPieces_cons]
  cases hpiece : disk.followPiece place piece with
  | error fault =>
    constructor
    · rintro ⟨h, -⟩
      cases h
    · rintro ⟨next, h, -⟩
      cases h
  | ok next =>
    constructor
    · intro h
      exact ⟨next, rfl, h⟩
    · rintro ⟨next', heq, h⟩
      obtain rfl := Except.ok.inj heq
      exact h

theorem Reaches.entryAt_start {pieces : List (List Char)} (h : disk.Reaches place pieces target) :
    disk.tree.entryAt place = some .directory := by
  cases pieces with
  | nil => exact (reaches_nil.mp h).2
  | cons piece rest =>
    obtain ⟨next, hnext, -⟩ := reaches_cons.mp h
    exact entryAt_of_followPiece hnext

theorem reaches_append {first second : List (List Char)} :
    disk.Reaches place (first ++ second) target ↔
      ∃ between, disk.Reaches place first between ∧ disk.Reaches between second target := by
  induction first generalizing place with
  | nil =>
    constructor
    · intro h
      exact ⟨place, reaches_nil.mpr ⟨rfl, h.entryAt_start⟩, h⟩
    · rintro ⟨between, hbetween, h⟩
      obtain ⟨rfl, -⟩ := reaches_nil.mp hbetween
      exact h
  | cons piece first ih =>
    simp only [List.cons_append, reaches_cons, ih]
    constructor
    · rintro ⟨next, hnext, between, hbetween, h⟩
      exact ⟨between, ⟨next, hnext, hbetween⟩, h⟩
    · rintro ⟨between, ⟨next, hnext, hbetween⟩, h⟩
      exact ⟨next, hnext, between, hbetween, h⟩

/-- **Only pieces that lead somewhere count** on the way to a directory. -/
theorem reaches_steps {pieces : List (List Char)} :
    disk.Reaches place (steps pieces) target ↔ disk.Reaches place pieces target := by
  induction pieces generalizing place with
  | nil => exact Iff.rfl
  | cons piece rest ih =>
    cases hpiece : isIdle piece with
    | true =>
      have hsteps : steps (piece :: rest) = steps rest := by simp [steps, hpiece]
      rw [hsteps, ih, reaches_cons]
      constructor
      · intro h
        exact ⟨place, by rw [followPiece_eq h.entryAt_start, if_pos hpiece], h⟩
      · rintro ⟨next, hnext, h⟩
        rw [followPiece_eq (entryAt_of_followPiece hnext), if_pos hpiece] at hnext
        obtain rfl := Except.ok.inj hnext
        exact h
    | false =>
      have hsteps : steps (piece :: rest) = piece :: steps rest := by simp [steps, hpiece]
      rw [hsteps, reaches_cons, reaches_cons]
      simp only [ih]

/-- A name leads from a directory to the directory of that name in it. -/
theorem reaches_name (hname : IsName name) (hplace : disk.tree.entryAt place = some .directory)
    (h : disk.tree.entryAt (place ++ [name]) = some .directory) :
    disk.Reaches place [name.toList] (place ++ [name]) := by
  refine reaches_cons.mpr ⟨place ++ [name], ?_, reaches_nil.mpr ⟨rfl, h⟩⟩
  have hshort : ¬ maxName < name.utf8ByteSize := Nat.not_lt.mpr hname.short
  rw [followPiece_eq hplace, String.ofList_toList, hname.not_idle, if_neg Bool.false_ne_true,
    if_neg hname.not_up, if_neg hshort, h]
  rfl

theorem Reaches.unique {pieces : List (List Char)} {target' : List String}
    (h : disk.Reaches place pieces target) (h' : disk.Reaches place pieces target') :
    target = target' :=
  Except.ok.inj (h.1.symm.trans h'.1)

/-! ## Disks with the same directories -/

/-- Two disks with directories at the same places, and the same one to work in. -/
structure SameDirectories (before after : Disk) : Prop where
  here : after.here = before.here
  directories : ∀ place,
    after.tree.entryAt place = some .directory ↔ before.tree.entryAt place = some .directory

theorem SameDirectories.start (h : before.SameDirectories after) (path : Path) :
    after.start path = before.start path := by
  unfold Disk.start
  rw [h.here]

theorem SameDirectories.refl (disk : Disk) : disk.SameDirectories disk :=
  ⟨rfl, fun _ => Iff.rfl⟩

theorem SameDirectories.symm (h : before.SameDirectories after) : after.SameDirectories before :=
  ⟨h.here.symm, fun place => (h.directories place).symm⟩

/-- **The way to a directory reads nothing but directories.** -/
theorem Reaches.congr {pieces : List (List Char)} (hsame : before.SameDirectories after)
    (h : before.Reaches place pieces target) : after.Reaches place pieces target := by
  induction pieces generalizing place with
  | nil =>
    obtain ⟨rfl, hplace⟩ := reaches_nil.mp h
    exact reaches_nil.mpr ⟨rfl, (hsame.directories _).mpr hplace⟩
  | cons piece rest ih =>
    obtain ⟨next, hnext, hrest⟩ := reaches_cons.mp h
    have hplace := entryAt_of_followPiece hnext
    refine reaches_cons.mpr ⟨next, ?_, ih hrest⟩
    rw [followPiece_eq hplace] at hnext
    rw [followPiece_eq ((hsame.directories place).mpr hplace)]
    split at hnext
    · next hidle => rw [if_pos hidle]; exact hnext
    · next hidle =>
      rw [if_neg hidle]
      split at hnext
      · next hup => rw [if_pos hup]; exact hnext
      · next hup =>
        rw [if_neg hup]
        split at hnext
        · cases hnext
        · next hshort =>
          rw [if_neg hshort]
          split at hnext
          · -- the next place is a directory, so it is there on both disks
            obtain rfl := Except.ok.inj hnext
            rw [(hsame.directories _).mpr hrest.entryAt_start]
            rfl
          · cases hnext

/-! ## Paths that end in a name -/

/-- A path leads to a directory. -/
def Opens (disk : Disk) (directory : Path) (target : List String) : Prop :=
  disk.Reaches (disk.start directory) directory.pieces target

/-- A path goes through a directory to its last piece. -/
def Passes (disk : Disk) (path : Path) (holder : List String) (last : List Char) : Prop :=
  ∃ front, path.pieces = front ++ [last] ∧ disk.Reaches (disk.start path) front holder

theorem Passes.congr {last : List Char} (hsame : before.SameDirectories after)
    (h : before.Passes path holder last) : after.Passes path holder last := by
  obtain ⟨front, hfront, hreaches⟩ := h
  refine ⟨front, hfront, ?_⟩
  rw [hsame.start]
  exact hreaches.congr hsame

theorem Passes.follow {last : List Char} (h : disk.Passes path holder last)
    (haccepted : refused? path = none) : disk.follow path = disk.followPiece holder last := by
  obtain ⟨front, hfront, hreaches⟩ := h
  have hpieces : path.text.toList.splitOn '/' = front ++ [last] := hfront
  unfold Disk.follow
  rw [haccepted]
  simp only [hpieces]
  unfold followPieces
  rw [List.foldlM_append]
  change (disk.followPieces (disk.start path) front >>= _) = _
  rw [hreaches.1]
  change (disk.followPiece holder last >>= pure) = _
  exact bind_pure _

/-- A path leads to the entry of a name in a directory; whether it is there is left open. -/
structure Leads (disk : Disk) (path : Path) (holder : List String) (name : String) : Prop where
  accepted : refused? path = none
  way : disk.Passes path holder name.toList
  isName : IsName name

theorem Leads.congr (hsame : before.SameDirectories after) (h : before.Leads path holder name) :
    after.Leads path holder name :=
  ⟨h.accepted, h.way.congr hsame, h.isName⟩

theorem Leads.entryAt_holder (h : disk.Leads path holder name) :
    disk.tree.entryAt holder = some .directory := by
  obtain ⟨front, -, hreaches⟩ := h.way
  exact hreaches.2

theorem Leads.followPiece (h : disk.Leads path holder name) :
    disk.followPiece holder name.toList =
      if (disk.tree.entryAt (holder ++ [name])).isSome then .ok (holder ++ [name])
      else .error .notFound := by
  have hshort : ¬ maxName < name.utf8ByteSize := Nat.not_lt.mpr h.isName.short
  rw [followPiece_eq h.entryAt_holder, String.ofList_toList, h.isName.not_idle,
    if_neg Bool.false_ne_true, if_neg h.isName.not_up, if_neg hshort]

theorem Leads.follow (h : disk.Leads path holder name) :
    disk.follow path =
      if (disk.tree.entryAt (holder ++ [name])).isSome then .ok (holder ++ [name])
      else .error .notFound := by
  rw [h.way.follow h.accepted, h.followPiece]

theorem Leads.lookup? (h : disk.Leads path holder name) :
    disk.lookup? path = disk.tree.get? (holder ++ [name]) := by
  unfold Disk.lookup?
  rw [h.follow]
  unfold Tree.entryAt
  rw [Option.isSome_map]
  cases hfound : disk.tree.get? (holder ++ [name]) with
  | none => rfl
  | some found => simp [hfound]

/-- What reading gives where something is seen. -/
def readEntry : Option Entry → Except Fault ByteArray
  | some (.file content) => .ok content
  | some .directory => .error .isDirectory
  | none => .error .notFound

theorem Leads.readFile (h : disk.Leads path holder name) :
    disk.readFile path = readEntry (disk.tree.entryAt (holder ++ [name])) := by
  unfold Disk.readFile
  rw [h.follow]
  unfold Tree.entryAt
  cases hfound : disk.tree.get? (holder ++ [name]) with
  | none => rfl
  | some found =>
    cases found <;> simp [hfound, Tree.entry, readEntry]

theorem Leads.followTarget (h : disk.Leads path holder name) :
    disk.followTarget path = .ok (holder ++ [name]) := by
  obtain ⟨front, hfront, hreaches⟩ := h.way
  have hpieces : path.text.toList.splitOn '/' = front ++ [name.toList] := hfront
  unfold Disk.followTarget
  rw [h.accepted]
  simp only [hpieces, List.dropLast_concat, List.getLast?_concat, Option.getD_some, hreaches.1,
    h.followPiece, String.ofList_toList]
  split
  · next hok =>
    split at hok
    · exact hok.symm
    · cases hok
  · rfl
  · next hne heq =>
    split at heq
    · cases heq
    · exact absurd (Except.error.inj heq).symm hne

/-- **A file is written unless a directory stands in its place.** -/
theorem Leads.writeFile (h : disk.Leads path holder name) (content : ByteArray) :
    disk.writeFile path content =
      if disk.tree.entryAt (holder ++ [name]) = some .directory then .error .isDirectory
      else .ok { disk with tree := disk.tree.put (holder ++ [name]) (.file content) } := by
  unfold Disk.writeFile
  rw [h.followTarget]
  unfold Tree.entryAt
  cases hfound : disk.tree.get? (holder ++ [name]) with
  | none => simp [hfound]
  | some found => cases found <;> simp [hfound, Tree.entry]

theorem Leads.removeFile_of_file (h : disk.Leads path holder name)
    (hfile : disk.tree.entryAt (holder ++ [name]) = some (.file content)) :
    disk.removeFile path = { disk with tree := disk.tree.erase (holder ++ [name]) } := by
  unfold Disk.removeFile
  rw [h.follow, hfile]
  simp [Tree.entryAt_eq_file.mp hfile]

theorem Leads.removeFile_of_not_file (h : disk.Leads path holder name)
    (hnot : ∀ content, disk.tree.entryAt (holder ++ [name]) ≠ some (.file content)) :
    disk.removeFile path = disk := by
  unfold Disk.removeFile
  rw [h.follow]
  split
  · rfl
  · next place hplace =>
    split at hplace
    · obtain rfl := Except.ok.inj hplace
      split
      · next content hfile => exact absurd (Tree.entryAt_eq_file.mpr hfile) (hnot content)
      · rfl
    · cases hplace

/-- Where nothing is, nothing is removed. -/
theorem removeFile_of_lookup? (h : disk.lookup? path = none) : disk.removeFile path = disk := by
  unfold Disk.lookup? at h
  unfold Disk.removeFile
  split at h
  · next place hplace => simp only [hplace, h]
  · next fault hfault => rw [hfault]

section

variable {stem extension : List Char}

/-- **Another extension leads through the same directory.** -/
theorem Passes.withExtension (h : disk.Passes path holder (stem ++ '.' :: extension))
    (hstem : stem ≠ []) (hdot : '.' ∉ extension) (hextension : extension ≠ [])
    (hplain : stem ≠ ['.']) {new : String} (hnew : '/' ∉ new.toList) :
    disk.Passes (path.withExtension new) holder (stem ++ '.' :: new.toList) := by
  obtain ⟨front, hfront, hreaches⟩ := h
  have hpieces := Path.pieces_withExtension hfront hstem hdot hextension hplain hnew
  refine ⟨front, hpieces, ?_⟩
  have hstart : disk.start (path.withExtension new) = disk.start path := by
    unfold Disk.start
    simp only [Path.head_slash_iff hpieces (by simp), Path.head_slash_iff hfront (by simp)]
  rw [hstart]
  exact hreaches

/-- A name that is nothing but dots and an extension leads back up without it. -/
theorem Passes.opens_withExtension (h : disk.Passes path holder ('.' :: '.' :: extension))
    (hdot : '.' ∉ extension) (hextension : extension ≠ []) (new : String) :
    disk.Opens (path.withExtension new) holder.dropLast ∧
      path.text = (path.withExtension new).text ++ String.ofList extension := by
  obtain ⟨front, hfront, hreaches⟩ := h
  have hpieces := Path.pieces_withExtension_dots hfront hdot hextension new
  have hstart : disk.start (path.withExtension new) = disk.start path := by
    unfold Disk.start
    simp only [Path.head_slash_iff hpieces (by simp), Path.head_slash_iff hfront (by simp)]
  unfold Opens
  rw [hpieces, hstart]
  refine ⟨reaches_append.mpr ⟨holder, hreaches, reaches_cons.mpr ⟨holder.dropLast, ?_, ?_⟩⟩, ?_⟩
  · rw [followPiece_eq hreaches.2]
    rfl
  · exact reaches_nil.mpr ⟨rfl, Tree.entryAt_dropLast hreaches.2⟩
  · refine String.toList_inj.mp ?_
    rw [String.toList_append, String.toList_ofList, Path.toList_text, Path.toList_text, hfront,
      hpieces, ← Path.intercalate_concat_append]
    rfl

end

/-- The place a file under a path is written to. -/
def target? (disk : Disk) (path : Path) : Option (List String) :=
  (disk.followTarget path).toOption

/-- No disk with the directories of this one can follow a path. -/
def Lost (disk : Disk) (path : Path) : Prop :=
  ∃ fault, ∀ other, disk.SameDirectories other →
    other.follow path = .error fault ∧ other.followTarget path = .error fault

section

variable (h : before.Lost path) (hsame : before.SameDirectories after)

include h hsame

theorem Lost.lookup? : after.lookup? path = none := by
  obtain ⟨fault, hlost⟩ := h
  unfold Disk.lookup?
  rw [(hlost after hsame).1]

theorem Lost.readFile : after.readFile path = before.readFile path := by
  obtain ⟨fault, hlost⟩ := h
  unfold Disk.readFile
  rw [(hlost after hsame).1, (hlost before (.refl before)).1]

theorem Lost.removeFile : after.removeFile path = after := by
  obtain ⟨fault, hlost⟩ := h
  unfold Disk.removeFile
  rw [(hlost after hsame).1]

theorem Lost.target? : after.target? path = none := by
  obtain ⟨fault, hlost⟩ := h
  rw [Disk.target?, (hlost after hsame).2]
  rfl

theorem Lost.writeFile : after.writeFile path content ≠ .ok disk := by
  obtain ⟨fault, hlost⟩ := h
  unfold Disk.writeFile
  rw [(hlost after hsame).2]
  simp

end

/-- **A path that goes through a directory to a name leads there**, or is lost. -/
theorem Passes.leads_or_lost {last : List Char} (h : disk.Passes path holder last)
    (hidle : isIdle last = false) (hup : last ≠ ['.', '.']) :
    disk.Leads path holder (String.ofList last) ∨ disk.Lost path := by
  cases haccepted : refused? path with
  | some fault =>
    refine Or.inr ⟨fault, fun other _ => ?_⟩
    unfold Disk.follow Disk.followTarget
    rw [haccepted]
    exact ⟨rfl, rfl⟩
  | none =>
    by_cases hlong : maxName < (String.ofList last).utf8ByteSize
    · refine Or.inr ⟨.nameTooLong, fun other hsame => ?_⟩
      have hway := h.congr hsame
      obtain ⟨front, hfront, hreaches⟩ := id hway
      have hpieces : path.text.toList.splitOn '/' = front ++ [last] := hfront
      have hpiece : other.followPiece holder last = .error .nameTooLong := by
        rw [followPiece_eq hreaches.2, hidle, if_neg Bool.false_ne_true, if_neg hup, if_pos hlong]
      refine ⟨(hway.follow haccepted).trans hpiece, ?_⟩
      unfold Disk.followTarget
      rw [haccepted]
      simp only [hpieces, List.dropLast_concat, List.getLast?_concat, Option.getD_some, hreaches.1,
        hpiece]
    · have hmem : last ∈ path.pieces := by
        obtain ⟨front, hfront, -⟩ := h
        rw [hfront]
        simp
      refine Or.inl ⟨haccepted, by rwa [String.toList_ofList], ?_, ?_, ?_, ?_, Nat.not_lt.mp hlong⟩
      all_goals rw [String.toList_ofList]
      · exact hidle
      · exact hup
      · exact Path.slash_not_mem_piece path hmem
      · intro hnul
        exact (refused?_eq_none_iff.mp haccepted).1 (Path.mem_text_of_mem_piece hmem hnul)

/-! ## Where a file was written -/

/-- What a place with something in it leads to is there. -/
theorem isSome_of_followPieces {pieces : List (List Char)}
    (hplace : (disk.tree.entryAt place).isSome)
    (h : disk.followPieces place pieces = .ok target) : (disk.tree.entryAt target).isSome := by
  induction pieces generalizing place with
  | nil =>
    obtain rfl : place = target := Except.ok.inj h
    exact hplace
  | cons piece rest ih =>
    rw [followPieces_cons] at h
    cases hpiece : disk.followPiece place piece with
    | error fault =>
      rw [hpiece] at h
      cases h
    | ok next =>
      rw [hpiece] at h
      refine ih ?_ h
      have hdir := entryAt_of_followPiece hpiece
      rw [followPiece_eq hdir] at hpiece
      split at hpiece
      · obtain rfl := Except.ok.inj hpiece
        exact hplace
      · split at hpiece
        · obtain rfl := Except.ok.inj hpiece
          rw [Tree.entryAt_dropLast hdir]
          rfl
        · split at hpiece
          · cases hpiece
          · split at hpiece
            · next hnext =>
              obtain rfl := Except.ok.inj hpiece
              exact hnext
            · cases hpiece

/-- **A file that was written stands under its name in a directory**, if its path ends in a name. -/
theorem leads_of_writeFile (hdisk : disk.WellFormed) {front : List (List Char)} {last : List Char}
    (hpieces : path.pieces = front ++ [last]) (hidle : isIdle last = false)
    (hup : last ≠ ['.', '.']) (h : disk.writeFile path content = .ok after) :
    ∃ holder, disk.Leads path holder (String.ofList last) := by
  have htarget : ∃ place, disk.followTarget path = .ok place := by
    unfold Disk.writeFile at h
    split at h
    · cases h
    · next place hplace => exact ⟨place, hplace⟩
  obtain ⟨place, hplace⟩ := htarget
  have hsplit : path.text.toList.splitOn '/' = front ++ [last] := hpieces
  have hway : ∃ holder, disk.Passes path holder last := by
    unfold Disk.followTarget at hplace
    split at hplace
    · cases hplace
    simp only [hsplit, List.dropLast_concat, List.getLast?_concat, Option.getD_some] at hplace
    split at hplace
    · cases hplace
    next holder hholder =>
    refine ⟨holder, front, hpieces, hholder, ?_⟩
    have hthere : (disk.tree.entryAt holder).isSome := by
      refine isSome_of_followPieces ?_ hholder
      rw [hdisk.start]
      rfl
    obtain ⟨entry, hentry⟩ := Option.isSome_iff_exists.mp hthere
    cases entry with
    | directory => exact hentry
    | file old =>
      have hnot : disk.followPiece holder last = .error .notDirectory := by
        unfold followPiece
        rw [Tree.entryAt_eq_file.mp hentry]
        rfl
      rw [hnot] at hplace
      cases hplace
  obtain ⟨holder, hway⟩ := hway
  refine ⟨holder, (hway.leads_or_lost hidle hup).resolve_right fun hlost => ?_⟩
  have hnone := hlost.target? (.refl disk)
  rw [Disk.target?, hplace] at hnone
  cases hnone

/-- A file can be written under a path: no directory stands in its place. -/
structure Takes (disk : Disk) (path : Path) (holder : List String) (name : String) : Prop where
  leads : disk.Leads path holder name
  vacant : disk.tree.entryAt (holder ++ [name]) ≠ some .directory

theorem Takes.congr (hsame : before.SameDirectories after) (h : before.Takes path holder name) :
    after.Takes path holder name :=
  ⟨h.leads.congr hsame, mt (hsame.directories _).mp h.vacant⟩

theorem Takes.writeFile (h : disk.Takes path holder name) (content : ByteArray) :
    disk.writeFile path content =
      .ok { disk with tree := disk.tree.put (holder ++ [name]) (.file content) } := by
  rw [h.leads.writeFile, if_neg h.vacant]

/-- What is seen when a file was written. -/
theorem Takes.entryAt (h : disk.Takes path holder name) (content : ByteArray)
    (place : List String) :
    (disk.tree.put (holder ++ [name]) (.file content)).entryAt place =
      if place = holder ++ [name] then some (.file content) else disk.tree.entryAt place :=
  Tree.entryAt_put h.leads.entryAt_holder h.vacant place

/-- A file that can be written can be removed. -/
theorem Takes.entryAt_removeFile (h : disk.Takes path holder name) (place : List String) :
    (disk.removeFile path).tree.entryAt place =
      if place = holder ++ [name] then none else disk.tree.entryAt place := by
  cases hold : disk.tree.entryAt (holder ++ [name]) with
  | none =>
    rw [h.leads.removeFile_of_not_file (by simp [hold])]
    split
    · next hplace => rw [hplace, hold]
    · rfl
  | some entry =>
    cases entry with
    | directory => exact absurd hold h.vacant
    | file content =>
      rw [h.leads.removeFile_of_file hold]
      exact Tree.entryAt_erase hold place

/-- Only what can be written was written. -/
theorem takes_of_writeFile (hdisk : disk.WellFormed) {front : List (List Char)} {last : List Char}
    (hpieces : path.pieces = front ++ [last]) (hidle : isIdle last = false)
    (hup : last ≠ ['.', '.']) (h : disk.writeFile path content = .ok after) :
    ∃ holder, disk.Takes path holder (String.ofList last) := by
  obtain ⟨holder, hleads⟩ := leads_of_writeFile hdisk hpieces hidle hup h
  refine ⟨holder, hleads, fun hdir => ?_⟩
  rw [hleads.writeFile, if_pos hdir] at h
  cases h

/-! ## Names below a directory -/

theorem text_join (directory : Path) (hname : IsName name) :
    ∃ slash, (directory.join name).text = directory.text ++ slash ++ name ∧
      '\x00' ∉ slash.toList := by
  have hhead : name.toList.head? ≠ some '/' := by
    intro hslash
    obtain ⟨rest, hrest⟩ := List.head?_eq_some_iff.mp hslash
    exact hname.no_slash (hrest ▸ List.mem_cons_self)
  unfold Path.join
  rw [if_neg hhead]
  split
  · exact ⟨"", by simp, by simp⟩
  · exact ⟨"/", rfl, by decide⟩

/-- A path below one that no system call takes is not taken either. -/
theorem refused?_of_join {directory : Path} (hname : IsName name)
    (h : refused? (directory.join name) = none) : refused? directory = none := by
  obtain ⟨slash, htext, -⟩ := text_join directory hname
  rw [String.append_assoc] at htext
  exact refused?_of_append htext h

theorem pieces_join_name (directory : Path) (hname : IsName name) :
    (directory.join name).pieces = directory.base ++ [name.toList] :=
  Path.pieces_join_of_no_slash directory hname.no_slash

theorem start_join (disk : Disk) (directory : Path) (hname : IsName name) :
    disk.start (directory.join name) = disk.start directory := by
  have hhead := Path.head_slash_iff (pieces_join_name directory hname)
    (Path.ne_nil_of_not_idle hname.not_idle)
  unfold Disk.start
  simp only [hhead, Path.head_slash_iff_base]

/-- What stays of a directory's path leads where the path leads. -/
theorem Reaches.base {directory : Path}
    (h : disk.Reaches place directory.pieces target) : disk.Reaches place directory.base target :=
  reaches_steps.mp (Path.steps_base directory ▸ reaches_steps.mpr h)

theorem Opens.join {directory : Path} (h : disk.Opens directory holder) (hname : IsName name)
    (hdir : disk.tree.entryAt (holder ++ [name]) = some .directory) :
    disk.Opens (directory.join name) (holder ++ [name]) := by
  unfold Opens
  rw [pieces_join_name directory hname, start_join disk directory hname]
  exact reaches_append.mpr ⟨holder, h.base, reaches_name hname h.2 hdir⟩

theorem Opens.passes {directory : Path} (h : disk.Opens directory holder) (hname : IsName name) :
    disk.Passes (directory.join name) holder name.toList := by
  refine ⟨directory.base, pieces_join_name directory hname, ?_⟩
  rw [start_join disk directory hname]
  exact h.base

/-- **A name below a directory leads into it.** -/
theorem Opens.leads {directory : Path} (h : disk.Opens directory holder) (hname : IsName name)
    (haccepted : refused? (directory.join name) = none) :
    disk.Leads (directory.join name) holder name :=
  ⟨haccepted, h.passes hname, hname⟩

/-- **Beside what a path leads to** stands what is joined to the path above it. -/
theorem Leads.opens_parent (h : disk.Leads path holder name) : disk.Opens path.parent holder := by
  obtain ⟨front, hfront, hreaches⟩ := h.way
  obtain ⟨hsteps, hhead⟩ := Path.steps_parent hfront h.isName.not_idle
  have hstart : disk.start path.parent = disk.start path := by
    unfold Disk.start
    simp only [hhead]
  unfold Opens
  rw [hstart, ← reaches_steps, hsteps, reaches_steps]
  exact hreaches

/-- A name that is joined to a directory leads nowhere else. -/
theorem Opens.eq_of_leads {directory : Path} {below : String} {holder' : List String}
    (h : disk.Opens directory holder) (hslash : '/' ∉ below.toList)
    (hleads : disk.Leads (directory.join below) holder' name) :
    holder' = holder ∧ name = below := by
  obtain ⟨front, hfront, hreaches⟩ := hleads.way
  rw [Path.pieces_join_of_no_slash directory hslash] at hfront
  obtain ⟨rfl, hlast⟩ := List.append_inj' hfront rfl
  obtain rfl : below = name := String.toList_inj.mp (List.singleton_inj.mp hlast)
  rw [start_join disk directory hleads.isName] at hreaches
  exact ⟨hreaches.unique h.base, rfl⟩

theorem Opens.congr {directory : Path} (hsame : before.SameDirectories after)
    (h : before.Opens directory target) : after.Opens directory target := by
  unfold Opens
  rw [hsame.start]
  exact Reaches.congr hsame h

theorem Opens.follow {directory : Path} (h : disk.Opens directory target)
    (haccepted : refused? directory = none) : disk.follow directory = .ok target := by
  unfold Disk.follow
  rw [haccepted]
  exact h.1

/-- A directory is looked up by the way to it. -/
theorem Opens.lookup? {directory : Path} (h : disk.Opens directory target)
    (haccepted : refused? directory = none) :
    disk.lookup? directory = disk.tree.get? target := by
  unfold Disk.lookup?
  rw [h.follow haccepted]

theorem opens_of_follow {directory : Path} {entries : List (String × Tree)}
    (h : disk.follow directory = .ok target)
    (hentries : disk.tree.get? target = some (.directory entries)) :
    disk.Opens directory target := by
  unfold Disk.follow at h
  split at h
  · cases h
  · exact ⟨h, Tree.entryAt_eq_directory.mpr ⟨entries, hentries⟩⟩

theorem opens_of_lookup? {directory : Path} {entries : List (String × Tree)}
    (h : disk.lookup? directory = some (.directory entries)) :
    ∃ target, disk.Opens directory target ∧
      disk.tree.get? target = some (.directory entries) := by
  unfold Disk.lookup? at h
  split at h
  · next target hfollow => exact ⟨target, opens_of_follow hfollow h, h⟩
  · cases h

theorem readFile_of_refused {fault : Fault} (h : refused? path = some fault) :
    disk.readFile path = .error fault := by
  unfold Disk.readFile Disk.follow
  rw [h]

theorem refused?_of_readFile (h : disk.readFile path = .ok content) : refused? path = none := by
  cases hrefused : refused? path with
  | none => rfl
  | some fault =>
    rw [readFile_of_refused hrefused] at h
    cases h

theorem refused?_of_lookup? {tree : Tree} (h : disk.lookup? path = some tree) :
    refused? path = none := by
  cases hrefused : refused? path with
  | none => rfl
  | some fault =>
    unfold Disk.lookup? Disk.follow at h
    rw [hrefused] at h
    cases h

/-- A directory cannot be read as a file. -/
theorem Opens.readFile {directory : Path} (h : disk.Opens directory target)
    (haccepted : refused? directory = none) :
    disk.readFile directory = .error .isDirectory := by
  obtain ⟨entries, hentries⟩ := Tree.entryAt_eq_directory.mp h.2
  unfold Disk.readFile
  rw [h.follow haccepted]
  simp only [hentries]

theorem Opens.readFile_congr {directory : Path} (hsame : before.SameDirectories after)
    (h : before.Opens directory target) : after.readFile directory = before.readFile directory := by
  cases haccepted : refused? directory with
  | some fault => rw [readFile_of_refused haccepted, readFile_of_refused haccepted]
  | none => rw [h.readFile haccepted, (h.congr hsame).readFile haccepted]

/-- A directory is not removed as a file. -/
theorem Opens.removeFile {directory : Path} (h : disk.Opens directory target) :
    disk.removeFile directory = disk := by
  obtain ⟨entries, hentries⟩ := Tree.entryAt_eq_directory.mp h.2
  unfold Disk.removeFile
  cases haccepted : refused? directory with
  | some fault =>
    unfold Disk.follow
    rw [haccepted]
  | none =>
    rw [h.follow haccepted]
    simp only [hentries]

/-- A directory is not written as a file. -/
theorem Opens.writeFile {directory : Path} (h : disk.Opens directory target) (content : ByteArray) :
    ∃ fault, disk.writeFile directory content = .error fault := by
  unfold Disk.writeFile Disk.followTarget
  cases haccepted : refused? directory with
  | some fault => exact ⟨fault, rfl⟩
  | none =>
    obtain ⟨front, last, hpieces⟩ := directory.exists_pieces
    unfold Opens at h
    rw [hpieces] at h
    obtain ⟨between, hfront, hback⟩ := reaches_append.mp h
    obtain ⟨next, hnext, hend⟩ := reaches_cons.mp hback
    obtain ⟨rfl, hdir⟩ := reaches_nil.mp hend
    obtain ⟨entries, hentries⟩ := Tree.entryAt_eq_directory.mp hdir
    have hsplit : directory.text.toList.splitOn '/' = front ++ [last] := hpieces
    refine ⟨.isDirectory, ?_⟩
    simp only [hsplit, List.dropLast_concat, List.getLast?_concat, Option.getD_some, hfront.1,
      hnext, hentries]

/-! ## Disks that differ in some files -/

/-- A disk has the directories of another, and all files but some chosen by name. -/
structure ChangedOnly (free : String → Prop) (before after : Disk) : Prop where
  wellFormed : after.WellFormed
  same : before.SameDirectories after
  files : ∀ place name, ¬ free name →
    after.tree.entryAt (place ++ [name]) = before.tree.entryAt (place ++ [name])

variable {free : String → Prop}

theorem ChangedOnly.refl (h : disk.WellFormed) : disk.ChangedOnly free disk :=
  ⟨h, .refl disk, fun _ _ _ => rfl⟩

/-- A change of what is seen at one free place. -/
theorem ChangedOnly.step {tree : Tree} {entry : Option Entry} (h : before.ChangedOnly free after)
    (hwell : tree.WellFormed) (hfree : free name)
    (hseen : ∀ other, tree.entryAt other =
      if other = holder ++ [name] then entry else after.tree.entryAt other)
    (hold : after.tree.entryAt (holder ++ [name]) ≠ some .directory)
    (hnew : entry ≠ some .directory) :
    before.ChangedOnly free { after with tree := tree } := by
  have hdirectories : ∀ place, tree.entryAt place = some .directory ↔
      after.tree.entryAt place = some .directory := by
    intro place
    rw [hseen]
    split
    · next heq =>
      rw [heq]
      exact iff_of_false hnew hold
    · exact Iff.rfl
  refine ⟨⟨hwell, (hdirectories _).mpr h.wellFormed.here⟩, ⟨h.same.here, fun place => ?_⟩,
    fun place other hother => ?_⟩
  · exact (hdirectories place).trans (h.same.directories place)
  · have hne : place ++ [other] ≠ holder ++ [name] := by
      intro heq
      have hlast := congrArg List.getLast? heq
      rw [List.getLast?_concat, List.getLast?_concat, Option.some.injEq] at hlast
      exact hother (hlast ▸ hfree)
    change tree.entryAt (place ++ [other]) = _
    rw [hseen, if_neg hne]
    exact h.files place other hother

/-- **Writing a free file changes nothing but free files.** -/
theorem ChangedOnly.write (h : before.ChangedOnly free after)
    (htakes : after.Takes path holder name) (hfree : free name) (content : ByteArray) :
    before.ChangedOnly free
      { after with tree := after.tree.put (holder ++ [name]) (.file content) } :=
  h.step (h.wellFormed.tree.put htakes.leads.entryAt_holder htakes.leads.isName) hfree
    (htakes.entryAt content) htakes.vacant (by simp)

/-- Removing a free file changes nothing but free files. -/
theorem ChangedOnly.removeFile (h : before.ChangedOnly free after)
    (hleads : after.Leads path holder name) (hfree : free name) :
    before.ChangedOnly free (after.removeFile path) := by
  cases hold : after.tree.entryAt (holder ++ [name]) with
  | none =>
    rw [hleads.removeFile_of_not_file (by simp [hold])]
    exact h
  | some entry =>
    cases entry with
    | directory =>
      rw [hleads.removeFile_of_not_file (by simp [hold])]
      exact h
    | file content =>
      rw [hleads.removeFile_of_file hold]
      exact h.step (h.wellFormed.tree.erase hold) hfree (Tree.entryAt_erase hold) (by simp [hold])
        (by simp)

/-- **A file that is not free is read as before**, under any path below a directory. -/
theorem ChangedOnly.readFile {directory : Path} (h : before.ChangedOnly free after)
    (hopens : before.Opens directory holder) (hname : IsName name) (hfree : ¬ free name) :
    after.readFile (directory.join name) = before.readFile (directory.join name) := by
  cases haccepted : refused? (directory.join name) with
  | some fault => rw [readFile_of_refused haccepted, readFile_of_refused haccepted]
  | none =>
    have hleads := hopens.leads hname haccepted
    rw [hleads.readFile, (hleads.congr h.same).readFile, h.files holder name hfree]

/-- **A file that was written is read** as it was written. -/
theorem Takes.readFile (hwell : disk.WellFormed) (h : disk.Takes path holder name)
    (content : ByteArray) :
    ({ disk with tree := disk.tree.put (holder ++ [name]) (.file content) } : Disk).readFile path =
      .ok content := by
  have hchanged : disk.ChangedOnly (fun _ => True)
      { disk with tree := disk.tree.put (holder ++ [name]) (.file content) } :=
    (ChangedOnly.refl hwell).write h trivial content
  rw [(h.leads.congr hchanged.same).readFile]
  change readEntry ((disk.tree.put (holder ++ [name]) (.file content)).entryAt _) = _
  rw [h.entryAt content, if_pos rfl]
  rfl

/-- A disk with files written one after the other. -/
def writeAll (disk : Disk) (files : List (Path × ByteArray)) : Except Fault Disk :=
  files.foldlM (fun disk file => disk.writeFile file.1 file.2) disk

theorem writeAll_append (disk : Disk) (first second : List (Path × ByteArray)) :
    disk.writeAll (first ++ second) = disk.writeAll first >>= fun disk => disk.writeAll second :=
  List.foldlM_append

theorem writeAll_cons (disk : Disk) (file : Path × ByteArray) (rest : List (Path × ByteArray)) :
    disk.writeAll (file :: rest) =
      disk.writeFile file.1 file.2 >>= fun disk => disk.writeAll rest :=
  List.foldlM_cons

theorem Leads.target? (h : disk.Leads path holder name) :
    disk.target? path = some (holder ++ [name]) := by
  rw [Disk.target?, h.followTarget]
  rfl

theorem Takes.target? (h : disk.Takes path holder name) :
    disk.target? path = some (holder ++ [name]) :=
  h.leads.target?

/-- **The last file that is written at a place stays there**, and where none is written nothing
changes. -/
theorem entryAt_writeAll {files : List (Path × ByteArray)}
    (hfiles : ∀ file ∈ files, ∃ holder name, before.Takes file.1 holder name ∧ free name)
    (hchanged : before.ChangedOnly free disk) (h : disk.writeAll files = .ok after)
    (place : List String) :
    after.tree.entryAt place =
      ((files.reverse.find? fun file => before.target? file.1 == some place).map
        fun file => Entry.file file.2).or (disk.tree.entryAt place) := by
  induction files generalizing disk with
  | nil =>
    obtain rfl : disk = after := Except.ok.inj h
    rfl
  | cons file rest ih =>
    obtain ⟨holder, name, htakes, hname⟩ := hfiles file List.mem_cons_self
    have htakes' := htakes.congr hchanged.same
    rw [writeAll_cons, htakes'.writeFile] at h
    have hrest := ih (fun other hother => hfiles other (List.mem_cons_of_mem _ hother))
      (hchanged.write htakes' hname file.2) h
    rw [hrest, List.reverse_cons, List.find?_append, htakes'.entryAt]
    cases rest.reverse.find? fun file => before.target? file.1 == some place with
    | some last => rfl
    | none =>
      by_cases hplace : place = holder ++ [name]
      · simp [hplace, htakes.target?]
      · have hother : ¬ holder ++ [name] = place := fun heq => hplace heq.symm
        simp [hplace, htakes.target?, hother]

/-! ## File operations on a disk -/

section

variable {fault : Fault} {tree : Tree}

theorem bind_run {α β : Type} (first : StateM Disk α) (next : α → StateM Disk β) (disk : Disk) :
    (first >>= next) disk = next (first disk).1 (first disk).2 :=
  rfl

theorem kind_run (path : Path) (disk : Disk) :
    (MonadFiles.kind? path : StateM Disk (Option EntryKind)) disk =
      ((disk.lookup? path).map Tree.kind, disk) :=
  rfl

theorem read_run (path : Path) (disk : Disk) :
    (MonadFiles.read path : StateM Disk (Except Fault ByteArray)) disk =
      (disk.readFile path, disk) :=
  rfl

theorem write_run_of_ok (h : disk.writeFile path content = .ok after) :
    (MonadFiles.write path content : StateM Disk (Except Fault Unit)) disk = (.ok (), after) := by
  unfold MonadFiles.write instMonadFilesStateMDisk
  dsimp only
  rw [bind_run]
  simp only [h, get, getThe, MonadStateOf.get, StateT.get, pure]
  rfl

theorem write_run_of_error (h : disk.writeFile path content = .error fault) :
    (MonadFiles.write path content : StateM Disk (Except Fault Unit)) disk =
      (.error fault, disk) := by
  unfold MonadFiles.write instMonadFilesStateMDisk
  dsimp only
  rw [bind_run]
  simp only [h, get, getThe, MonadStateOf.get, StateT.get, pure]
  rfl

theorem walk_run (h : disk.lookup? path = some tree) :
    (MonadFiles.walk path : StateM Disk (List Path)) disk = (tree.walk Disk.opens path, disk) := by
  unfold MonadFiles.walk instMonadFilesStateMDisk
  dsimp only
  rw [bind_run]
  simp only [h, get, getThe, MonadStateOf.get, StateT.get, pure]
  rfl

/-- Something done for each item of a list, one after the other. -/
theorem mapM_run_cons {α β : Type} (f : α → StateM Disk β) (item : α) (rest : List α)
    (disk : Disk) :
    ((item :: rest).mapM f) disk =
      ((f item disk).1 :: (rest.mapM f (f item disk).2).1, (rest.mapM f (f item disk).2).2) := by
  rw [List.mapM_cons]
  rfl

end

/-- A text is read from its bytes. -/
theorem decode_toUTF8 (text : String) : decode (.ok text.toUTF8) = .ok text := by
  have htext : String.fromUTF8? text.toUTF8 = some text := dif_pos text.isValidUTF8
  unfold decode
  simp only [htext]

end NetScribe.Files.Disk
