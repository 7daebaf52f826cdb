import NetScribe.Files.Disk

/-!
# Paths piece by piece

A path is followed piece by piece, so what is done to its text is told by its pieces between
slashes: joining a path to a directory puts pieces behind those of the directory (`pieces_join`),
and another name or extension replaces the last piece (`pieces_withExtension`, `steps_parent`).
Pieces that are empty or a dot lead nowhere and are left out where only the way counts (`steps`).
A name has an extension exactly if a last dot, not its first letter, stands in front of it
(`cutName_snd_eq_some`).
-/

namespace NetScribe

namespace Files

/-- A name that can stand in a directory. -/
structure IsName (name : String) : Prop where
  not_idle : Path.isIdle name.toList = false
  not_up : name.toList ≠ ['.', '.']
  no_slash : '/' ∉ name.toList
  no_nul : '\x00' ∉ name.toList
  short : name.utf8ByteSize ≤ Disk.maxName

instance (name : String) : Decidable (IsName name) :=
  decidable_of_iff
    (Path.isIdle name.toList = false ∧ name.toList ≠ ['.', '.'] ∧ '/' ∉ name.toList ∧
      '\x00' ∉ name.toList ∧ name.utf8ByteSize ≤ Disk.maxName)
    ⟨fun h => ⟨h.1, h.2.1, h.2.2.1, h.2.2.2.1, h.2.2.2.2⟩,
      fun h => ⟨h.not_idle, h.not_up, h.no_slash, h.no_nul, h.short⟩⟩

end Files

namespace Path

variable {path directory : Path} {front : List (List Char)} {last : List Char}

/-- The pieces of a path between slashes. -/
def pieces (path : Path) : List (List Char) := path.text.toList.splitOn '/'

/-- The pieces that lead somewhere. -/
def steps (pieces : List (List Char)) : List (List Char) := pieces.filter fun piece => !isIdle piece

@[simp] theorem steps_append (first second : List (List Char)) :
    steps (first ++ second) = steps first ++ steps second :=
  List.filter_append first second

theorem steps_singleton_idle {piece : List Char} (h : isIdle piece = true) :
    steps [piece] = [] := by
  simp [steps, h]

theorem steps_singleton {piece : List Char} (h : isIdle piece = false) :
    steps [piece] = [piece] := by
  simp [steps, h]

theorem ne_nil_of_not_idle {piece : List Char} (h : isIdle piece = false) : piece ≠ [] := by
  rintro rfl
  cases h

/-- No piece holds a slash. -/
theorem slash_not_mem_splitOn {letters piece : List Char} (h : piece ∈ letters.splitOn '/') :
    '/' ∉ piece := by
  induction letters generalizing piece with
  | nil =>
    rw [List.splitOn_nil, List.mem_singleton] at h
    rw [h]
    exact List.not_mem_nil
  | cons c letters ih =>
    obtain ⟨first, rest, hsplit⟩ := List.exists_cons_of_ne_nil (List.splitOn_ne_nil '/' letters)
    rw [List.splitOn_cons_eq_if_modifyHead, hsplit] at h
    rw [hsplit] at ih
    split at h
    · rcases List.mem_cons.mp h with rfl | hrest
      · exact List.not_mem_nil
      · exact ih hrest
    · next hc =>
      rcases List.mem_cons.mp h with rfl | hrest
      · rintro hmem
        rcases List.mem_cons.mp hmem with rfl | hmem
        · exact hc (beq_self_eq_true _)
        · exact ih List.mem_cons_self hmem
      · exact ih (List.mem_cons_of_mem _ hrest)

theorem slash_not_mem_piece (path : Path) {piece : List Char} (h : piece ∈ path.pieces) :
    '/' ∉ piece :=
  slash_not_mem_splitOn h

/-- The text of a path is its pieces with slashes between them. -/
theorem toList_text (path : Path) : path.text.toList = ['/'].intercalate path.pieces :=
  (List.intercalate_splitOn '/').symm

/-- The letters of a piece are letters of the text. -/
theorem mem_text_of_mem_piece {piece : List Char} {c : Char} (h : piece ∈ path.pieces)
    (hc : c ∈ piece) : c ∈ path.text.toList := by
  rw [toList_text]
  generalize path.pieces = pieces at h
  induction pieces with
  | nil => cases h
  | cons first rest ih =>
    cases rest with
    | nil =>
      rw [List.mem_singleton.mp h] at hc
      rwa [List.intercalate_singleton]
    | cons second rest =>
      rw [List.intercalate_cons_cons]
      rcases List.mem_cons.mp h with rfl | hrest
      · exact List.mem_append_left _ (List.mem_append_left _ hc)
      · exact List.mem_append_right _ (ih hrest)

theorem pieces_ofList_intercalate {pieces : List (List Char)} (h : ∀ piece ∈ pieces, '/' ∉ piece)
    (hne : pieces ≠ []) : (⟨String.ofList (['/'].intercalate pieces)⟩ : Path).pieces = pieces := by
  rw [Path.pieces, String.toList_ofList, List.splitOn_intercalate '/' h hne]

/-- A path has a last piece. -/
theorem exists_pieces (path : Path) : ∃ front last, path.pieces = front ++ [last] :=
  ⟨_, _, (List.dropLast_concat_getLast (List.splitOn_ne_nil '/' path.text.toList)).symm⟩

/-- A path is absolute if an empty piece comes first, given that another piece comes last. -/
theorem head_slash_iff (h : path.pieces = front ++ [last]) (hlast : last ≠ []) :
    path.text.toList.head? = some '/' ↔ front.head? = some [] := by
  have hslash : '/' ∉ last := slash_not_mem_piece path (by rw [h]; simp)
  rw [toList_text, h]
  cases front with
  | nil =>
    obtain ⟨c, rest, rfl⟩ := List.exists_cons_of_ne_nil hlast
    have hc : c ≠ '/' := fun heq => hslash (heq ▸ List.mem_cons_self)
    simp [List.intercalate_singleton, hc]
  | cons first front =>
    have hfirst : '/' ∉ first := slash_not_mem_piece path (by rw [h]; exact List.mem_cons_self)
    rw [List.cons_append, List.intercalate_cons_of_ne_nil (by simp)]
    cases first with
    | nil => simp
    | cons c rest =>
      have hc : c ≠ '/' := fun heq => hfirst (heq ▸ List.mem_cons_self)
      simp [hc]

/-! ## Joined paths -/

/-- The pieces of a directory that stay when something is joined to it: a slash at its end is not
doubled. -/
def base (directory : Path) : List (List Char) :=
  if directory.text.isEmpty || directory.text.toList.getLast? = some '/' then
    directory.pieces.dropLast
  else directory.pieces

theorem pieces_of_last_slash {letters : List Char} (h : letters.getLast? = some '/') :
    ∃ before, letters = before ++ ['/'] ∧ letters.splitOn '/' = before.splitOn '/' ++ [[]] := by
  obtain ⟨before, rfl⟩ := List.getLast?_eq_some_iff.mp h
  exact ⟨before, rfl, List.splitOn_append_cons_self before []⟩

theorem pieces_eq_base (directory : Path) :
    directory.pieces = directory.base ∨ directory.pieces = directory.base ++ [[]] := by
  unfold base
  split
  · next h =>
    right
    rw [Bool.or_eq_true, decide_eq_true_eq] at h
    rcases h with hempty | hslash
    · have htext : directory.text = "" := String.isEmpty_iff.mp hempty
      simp [pieces, htext]
    · obtain ⟨before, -, hsplit⟩ := pieces_of_last_slash hslash
      rw [pieces, hsplit, List.dropLast_concat]
  · exact Or.inl rfl

theorem steps_base (directory : Path) : steps directory.base = steps directory.pieces := by
  rcases pieces_eq_base directory with h | h
  · rw [h]
  · rw [h, steps_append, steps_singleton_idle rfl, List.append_nil]

/-- **A joined path has the pieces of both.** -/
theorem pieces_join (directory : Path) {below : String} (h : below.toList.head? ≠ some '/') :
    (directory.join below).pieces = directory.base ++ (⟨below⟩ : Path).pieces := by
  unfold join base
  rw [if_neg h]
  split
  · next hend =>
    rw [Bool.or_eq_true, decide_eq_true_eq] at hend
    rcases hend with hempty | hslash
    · have htext : directory.text = "" := String.isEmpty_iff.mp hempty
      simp [pieces, htext]
    · obtain ⟨before, hbefore, hsplit⟩ := pieces_of_last_slash hslash
      rw [pieces, pieces, hsplit, List.dropLast_concat, String.toList_append, hbefore,
        List.append_assoc, List.singleton_append, List.splitOn_append_cons_self]
      rfl
  · next hend =>
    rw [pieces, String.toList_append, String.toList_append, List.append_assoc]
    exact List.splitOn_append_cons_self _ _

theorem pieces_join_of_no_slash (directory : Path) {name : String} (h : '/' ∉ name.toList) :
    (directory.join name).pieces = directory.base ++ [name.toList] := by
  rw [pieces_join directory fun hslash => ?_]
  · rw [pieces, List.splitOn_eq_singleton h]
  · obtain ⟨rest, hrest⟩ := List.head?_eq_some_iff.mp hslash
    exact h (hrest ▸ List.mem_cons_self)

theorem join_absolute (directory : Path) {below : String} (h : below.toList.head? = some '/') :
    directory.join below = ⟨below⟩ := by
  rw [join, if_pos h]

/-- A directory is absolute if what stays of it starts with an empty piece. -/
theorem head_slash_iff_base (directory : Path) :
    directory.text.toList.head? = some '/' ↔ directory.base.head? = some [] := by
  by_cases hempty : directory.text = ""
  · have hbase : directory.base = [] := by simp [base, pieces, hempty]
    rw [hbase, hempty]
    simp
  · obtain ⟨c, rest, hletters⟩ :=
      List.exists_cons_of_ne_nil (mt String.toList_eq_nil_iff.mp hempty)
    obtain ⟨first, more, hsplit⟩ := List.exists_cons_of_ne_nil (List.splitOn_ne_nil '/' rest)
    have hpieces : directory.pieces =
        if c = '/' then [] :: first :: more else (c :: first) :: more := by
      rw [pieces, hletters, List.splitOn_cons_eq_if_modifyHead, hsplit]
      simp
    rcases pieces_eq_base directory with h | h
    · rw [← h, hpieces, hletters]
      by_cases hc : c = '/' <;> simp [hc]
    · rw [hletters]
      rw [hpieces] at h
      cases hbase : directory.base with
      | nil =>
        rw [hbase] at h
        by_cases hc : c = '/' <;> simp [hc] at h
      | cons head tail =>
        rw [hbase, List.cons_append] at h
        by_cases hc : c = '/'
        · rw [if_pos hc] at h
          simp [hc, ← (List.cons.inj h).1]
        · rw [if_neg hc] at h
          simp [hc, ← (List.cons.inj h).1]

/-- A path some names below another. -/
def below (directory : Path) (names : List String) : Path :=
  names.foldl join directory

@[simp] theorem below_nil (directory : Path) : directory.below [] = directory := rfl

theorem below_cons (directory : Path) (name : String) (names : List String) :
    directory.below (name :: names) = (directory.join name).below names := rfl

theorem below_concat (directory : Path) (names : List String) (name : String) :
    directory.below (names ++ [name]) = (directory.below names).join name := by
  simp [below]

/-! ## Names -/

/-- What is cut off in front of the pieces of a path. -/
theorem cut_cases (path : Path) :
    (path.cut.1 = [] ∧ path.text.toList.head? ≠ some '/' ∧ path.pieces = path.cut.2) ∨
      (path.cut.1 = ['/'] ∧ path.pieces = [] :: path.cut.2) ∨
      (path.cut.1 = ['.'] ∧ path.pieces = ['.'] :: path.cut.2) := by
  unfold cut
  split
  · next rest hletters =>
    refine Or.inr (Or.inl ⟨rfl, ?_⟩)
    rw [pieces, hletters, List.splitOn_cons_eq_if_modifyHead]
    rfl
  · next hletters =>
    split
    · next rest hrest => exact Or.inr (Or.inr ⟨rfl, hrest⟩)
    · refine Or.inl ⟨rfl, fun hhead => ?_, rfl⟩
      obtain ⟨rest, hrest⟩ := List.head?_eq_some_iff.mp hhead
      exact hletters rest hrest

/-- A piece that leads somewhere is not the idle one in front of it. -/
theorem exists_behind_idle {idle : List Char} {rest : List (List Char)}
    (h : front ++ [last] = idle :: rest) (hidle : isIdle idle = true)
    (hlast : isIdle last = false) :
    ∃ between, rest = between ++ [last] ∧ front = idle :: between := by
  cases front with
  | nil =>
    obtain ⟨rfl, -⟩ := List.cons.inj h
    rw [hidle] at hlast
    cases hlast
  | cons first between =>
    obtain ⟨rfl, hrest⟩ := List.cons.inj h
    exact ⟨between, hrest.symm, rfl⟩

/-- Where a piece that leads somewhere comes last, it is not what is cut off in front. -/
theorem cut_of_last (h : path.pieces = front ++ [last]) (hlast : isIdle last = false) :
    ∃ between, path.cut.2 = between ++ [last] ∧ steps between = steps front ∧
      ((path.cut.1 = [] ∧ path.text.toList.head? ≠ some '/' ∧ front = between) ∨
        (path.cut.1 = ['/'] ∧ front = [] :: between) ∨
        (path.cut.1 = ['.'] ∧ front = ['.'] :: between)) := by
  rcases cut_cases path with ⟨hlead, hhead, hcut⟩ | ⟨hlead, hcut⟩ | ⟨hlead, hcut⟩
  · exact ⟨front, hcut ▸ h, rfl, Or.inl ⟨hlead, hhead, rfl⟩⟩
  · obtain ⟨between, hrest, rfl⟩ := exists_behind_idle (h.symm.trans hcut) rfl hlast
    exact ⟨between, hrest, rfl, Or.inr (Or.inl ⟨hlead, rfl⟩)⟩
  · obtain ⟨between, hrest, rfl⟩ := exists_behind_idle (h.symm.trans hcut) rfl hlast
    exact ⟨between, hrest, rfl, Or.inr (Or.inr ⟨hlead, rfl⟩)⟩

theorem trimPieces_concat (front : List (List Char)) (h : isIdle last = false) :
    trimPieces (front ++ [last]) = front ++ [last] := by
  simp [trimPieces, h]

theorem trimPieces_front (pieces : List (List Char)) : trimPieces pieces <+: pieces := by
  have hsuffix := List.dropWhile_suffix isIdle (l := pieces.reverse)
  simpa [trimPieces] using List.reverse_prefix.mpr hsuffix

theorem steps_dropWhile (pieces : List (List Char)) :
    steps (pieces.dropWhile isIdle) = steps pieces := by
  induction pieces with
  | nil => rfl
  | cons piece rest ih =>
    cases hpiece : isIdle piece with
    | true =>
      rw [List.dropWhile_cons_of_pos hpiece, ih, ← List.singleton_append, steps_append,
        steps_singleton_idle hpiece, List.nil_append]
    | false => rw [List.dropWhile_cons_of_neg (by simp [hpiece])]

@[simp] theorem steps_trimPieces (pieces : List (List Char)) :
    steps (trimPieces pieces) = steps pieces := by
  have hreverse : ∀ list : List (List Char), steps list.reverse = (steps list).reverse :=
    fun _ => List.filter_reverse
  rw [trimPieces, hreverse, steps_dropWhile, hreverse, List.reverse_reverse]

theorem head?_dropWhile_idle (pieces : List (List Char)) :
    (pieces.dropWhile isIdle).head? = (steps pieces).head? := by
  induction pieces with
  | nil => rfl
  | cons piece rest ih =>
    cases hpiece : isIdle piece with
    | true =>
      rw [List.dropWhile_cons_of_pos hpiece, ih, steps, steps,
        List.filter_cons_of_neg (by simp [hpiece])]
    | false =>
      rw [List.dropWhile_cons_of_neg (by simp [hpiece]), steps,
        List.filter_cons_of_pos (by simp [hpiece])]
      rfl

/-- **The name of a path is the last piece that leads somewhere.** -/
theorem fileName?_eq_steps (path : Path) :
    path.fileName? = (steps path.pieces).getLast?.bind fun last =>
      if last = ['.', '.'] then none else some (String.ofList last) := by
  have hsteps : steps path.cut.2 = steps path.pieces := by
    rcases cut_cases path with ⟨-, -, hcut⟩ | ⟨-, hcut⟩ | ⟨-, hcut⟩ <;> rw [hcut] <;> rfl
  have hlast : (trimPieces path.cut.2).getLast? = (steps path.pieces).getLast? := by
    have hreverse : steps path.cut.2.reverse = (steps path.cut.2).reverse := List.filter_reverse
    rw [trimPieces, List.getLast?_reverse, head?_dropWhile_idle, hreverse, List.head?_reverse,
      hsteps]
  unfold fileName?
  rw [hlast]
  cases (steps path.pieces).getLast? <;> rfl

/-- The name of a path is its last piece. -/
theorem fileName?_of_last (h : path.pieces = front ++ [last]) (hlast : isIdle last = false) :
    path.fileName? = if last = ['.', '.'] then none else some (String.ofList last) := by
  rw [fileName?_eq_steps, h, steps_append, steps_singleton hlast, List.getLast?_concat]
  rfl

/-- The pieces that a text made of pieces is cut into again. -/
theorem steps_splitOn_intercalate {kept : List (List Char)} (h : ∀ piece ∈ kept, '/' ∉ piece) :
    steps ((['/'].intercalate kept).splitOn '/') = steps kept := by
  by_cases hkept : kept = []
  · rw [hkept]
    rfl
  · rw [List.splitOn_intercalate '/' h hkept]

theorem paste_relative {kept : List (List Char)} (h : ∀ piece ∈ kept, '/' ∉ piece)
    (hhead : kept.head? ≠ some []) :
    steps (paste [] kept).pieces = steps kept ∧
      (paste [] kept).text.toList.head? ≠ some '/' := by
  have htext : (paste [] kept).text.toList = ['/'].intercalate kept := by simp [paste]
  refine ⟨by rw [pieces, htext, steps_splitOn_intercalate h], ?_⟩
  rw [htext]
  cases kept with
  | nil => simp
  | cons first rest =>
    obtain ⟨c, letters, rfl⟩ := List.exists_cons_of_ne_nil fun hnil => hhead (congrArg some hnil)
    have hc : c ≠ '/' := fun heq => h _ List.mem_cons_self (heq ▸ List.mem_cons_self)
    rw [List.intercalate_cons_cons_left]
    simpa using hc

theorem paste_root {kept : List (List Char)} (h : ∀ piece ∈ kept, '/' ∉ piece) :
    steps (paste ['/'] kept).pieces = steps kept ∧
      (paste ['/'] kept).text.toList.head? = some '/' := by
  have htext : (paste ['/'] kept).text.toList = [] ++ '/' :: ['/'].intercalate kept := by
    simp [paste]
  refine ⟨?_, by rw [htext]; rfl⟩
  rw [pieces, htext, List.splitOn_append_cons_self, steps_append, steps_splitOn_intercalate h]
  rfl

theorem paste_here {kept : List (List Char)} (h : ∀ piece ∈ kept, '/' ∉ piece) :
    steps (paste ['.'] kept).pieces = steps kept ∧
      (paste ['.'] kept).text.toList.head? ≠ some '/' := by
  by_cases hkept : kept = []
  · rw [hkept]
    exact ⟨rfl, by decide⟩
  · have htext : (paste ['.'] kept).text.toList = ['.'] ++ '/' :: ['/'].intercalate kept := by
      simp [paste, hkept]
    refine ⟨?_, by rw [htext]; simp⟩
    rw [pieces, htext, List.splitOn_append_cons_self, steps_append, steps_splitOn_intercalate h]
    rfl

/-- **The directory above a path is on the way to it**, one step before its last. -/
theorem steps_parent (h : path.pieces = front ++ [last]) (hlast : isIdle last = false) :
    steps path.parent.pieces = steps front ∧
      (path.parent.text.toList.head? = some '/' ↔ path.text.toList.head? = some '/') := by
  obtain ⟨between, hcut, hsteps, hlead⟩ := cut_of_last h hlast
  have hslash : ∀ piece ∈ trimPieces between, '/' ∉ piece := by
    intro piece hpiece
    refine slash_not_mem_piece path ?_
    rw [h]
    have hmem := (trimPieces_front between).subset hpiece
    rcases hlead with ⟨-, -, rfl⟩ | ⟨-, rfl⟩ | ⟨-, rfl⟩ <;> simp [hmem]
  have hparent : path.parent = paste path.cut.1 (trimPieces between) := by
    unfold parent
    change paste path.cut.1 (trimPieces (trimPieces path.cut.2).dropLast) = _
    rw [hcut, trimPieces_concat between hlast, List.dropLast_concat]
  have habsolute := head_slash_iff h (ne_nil_of_not_idle hlast)
  rw [hparent, ← hsteps, ← steps_trimPieces between]
  rcases hlead with ⟨hlead, hhead, rfl⟩ | ⟨hlead, rfl⟩ | ⟨hlead, rfl⟩ <;> rw [hlead]
  · -- what is kept of the pieces starts with the first of them
    have hfirst : (trimPieces front).head? ≠ some [] := by
      intro hnil
      obtain ⟨rest, hrest⟩ := List.head?_eq_some_iff.mp hnil
      obtain ⟨dropped, hdropped⟩ := trimPieces_front front
      refine hhead (habsolute.mpr ?_)
      rw [← hdropped, hrest]
      rfl
    obtain ⟨hpaste, hrelative⟩ := paste_relative hslash hfirst
    exact ⟨hpaste, iff_of_false hrelative hhead⟩
  · obtain ⟨hpaste, hroot⟩ := paste_root hslash
    exact ⟨hpaste, iff_of_true hroot (habsolute.mpr rfl)⟩
  · obtain ⟨hpaste, hrelative⟩ := paste_here hslash
    exact ⟨hpaste, iff_of_false hrelative fun hhead => by cases habsolute.mp hhead⟩

/-- What stands in a directory has the directory's name above its own. -/
theorem fileName?_parent_join (directory : Path) {name : String} (hslash : '/' ∉ name.toList)
    (hidle : isIdle name.toList = false) :
    (directory.join name).parent.fileName? = directory.fileName? := by
  have hpieces := pieces_join_of_no_slash directory hslash
  rw [fileName?_eq_steps, (steps_parent hpieces hidle).1, steps_base, ← fileName?_eq_steps]

/-! ## Extensions -/

theorem cutName_concat {stem extension : List Char} (hstem : stem ≠ []) (hdot : '.' ∉ extension) :
    cutName (stem ++ '.' :: extension) = (stem, some extension) := by
  have hletters : ∀ c ∈ extension.reverse, (c != '.') = true := by
    intro c hc
    rw [bne_iff_ne]
    exact fun heq => hdot (heq ▸ List.mem_reverse.mp hc)
  have hback : (stem ++ '.' :: extension).reverse = extension.reverse ++ '.' :: stem.reverse := by
    simp
  have hdrop : (extension.reverse ++ '.' :: stem.reverse).dropWhile (· != '.') =
      '.' :: stem.reverse := by
    rw [List.dropWhile_append_of_pos hletters]
    rfl
  have htake : (extension.reverse ++ '.' :: stem.reverse).takeWhile (· != '.') =
      extension.reverse := by
    rw [List.takeWhile_append_of_pos hletters]
    simp
  obtain ⟨c, rest, hrest⟩ := List.exists_cons_of_ne_nil (mt List.reverse_eq_nil_iff.mp hstem)
  simp only [cutName, hback, hdrop, htake]
  rw [hrest]
  simp only [← hrest, List.reverse_reverse]

/-- **A name has an extension behind its last dot**, unless that is its first letter. -/
theorem cutName_snd_eq_some {name extension : List Char} :
    (cutName name).2 = some extension ↔
      ∃ stem, stem ≠ [] ∧ '.' ∉ extension ∧ name = stem ++ '.' :: extension := by
  constructor
  · intro h
    have hback := List.takeWhile_append_dropWhile (p := (· != '.')) (l := name.reverse)
    cases hdrop : name.reverse.dropWhile (· != '.') with
    | nil => simp [cutName, hdrop] at h
    | cons first stem =>
      have hdot : first = '.' := by
        have hhead := List.head?_dropWhile_not (· != '.') name.reverse
        rw [hdrop] at hhead
        simpa using hhead
      cases stem with
      | nil => simp [cutName, hdrop] at h
      | cons c stem =>
        simp only [cutName, hdrop, Option.some.injEq] at h
        subst h
        rw [hdrop, hdot] at hback
        refine ⟨(c :: stem).reverse, by simp, fun hmem => ?_, ?_⟩
        · have hletter := List.all_eq_true.mp List.all_takeWhile _ (List.mem_reverse.mp hmem)
          simp at hletter
        · simpa using (congrArg List.reverse hback).symm
  · rintro ⟨stem, hstem, hdot, rfl⟩
    rw [cutName_concat hstem hdot]

theorem extension?_of_last (h : path.pieces = front ++ [last]) (hlast : isIdle last = false)
    (hup : last ≠ ['.', '.']) : path.extension? = (cutName last).2.map String.ofList := by
  unfold extension?
  rw [fileName?_of_last h hlast, if_neg hup]
  cases hcut : (cutName last).2 <;> simp [hcut]

theorem stem?_of_last (h : path.pieces = front ++ [last]) (hlast : isIdle last = false) :
    path.stem? = if last = ['.', '.'] then none else some (String.ofList (cutName last).1) := by
  unfold stem?
  rw [fileName?_of_last h hlast]
  split <;> simp

theorem intercalate_concat_append (front : List (List Char)) (first second : List Char) :
    ['/'].intercalate (front ++ [first ++ second]) =
      ['/'].intercalate (front ++ [first]) ++ second := by
  induction front with
  | nil => rw [List.nil_append, List.nil_append, List.intercalate_singleton,
      List.intercalate_singleton]
  | cons piece front ih =>
    rw [List.cons_append, List.cons_append, List.intercalate_cons_of_ne_nil (by simp),
      List.intercalate_cons_of_ne_nil (by simp), ih, List.append_assoc, List.append_assoc,
      List.append_assoc]

/-- **Letters without a slash go to the last piece.** -/
theorem pieces_append (text letters : String) (h : '/' ∉ letters.toList) :
    ∃ front last, (⟨text ++ letters⟩ : Path).pieces = front ++ [last ++ letters.toList] := by
  obtain ⟨front, last, hpieces⟩ := exists_pieces ⟨text⟩
  have hslash : ∀ piece ∈ front ++ [last], '/' ∉ piece := by
    intro piece hpiece
    exact slash_not_mem_piece ⟨text⟩ (hpieces ▸ hpiece)
  refine ⟨front, last, ?_⟩
  rw [pieces, String.toList_append, toList_text ⟨text⟩, hpieces, ← intercalate_concat_append]
  refine List.splitOn_intercalate '/' (fun piece hpiece => ?_) (by simp)
  rcases List.mem_append.mp hpiece with hpiece | hpiece
  · exact hslash piece (List.mem_append_left _ hpiece)
  · obtain rfl := List.mem_singleton.mp hpiece
    rw [List.mem_append, not_or]
    exact ⟨hslash last (by simp), h⟩

theorem isIdle_append_dot {stem extension : List Char} (h : stem ≠ []) :
    isIdle (stem ++ '.' :: extension) = false := by
  obtain ⟨c, stem, rfl⟩ := List.exists_cons_of_ne_nil h
  simp [isIdle]

section

variable {stem extension : List Char}

theorem slash_not_mem_replaced {new : List Char} (h : path.pieces = front ++ [stem ++ extension])
    (hnew : '/' ∉ new) : ∀ piece ∈ front ++ [stem ++ new], '/' ∉ piece := by
  intro piece hpiece
  rcases List.mem_append.mp hpiece with hpiece | hpiece
  · exact slash_not_mem_piece path (h ▸ List.mem_append_left _ hpiece)
  · have hlast := slash_not_mem_piece path (h ▸ List.mem_append_right front List.mem_cons_self)
    rw [List.mem_singleton.mp hpiece, List.mem_append]
    rw [List.mem_append] at hlast
    rintro (hmem | hmem)
    · exact hlast (Or.inl hmem)
    · exact hnew hmem

/-- Cutting the extension off leaves the dot in front of it. -/
theorem pieces_cutExtension (h : path.pieces = front ++ [stem ++ '.' :: extension])
    (hstem : stem ≠ []) (hdot : '.' ∉ extension) (hextension : extension ≠ []) :
    path.cutExtension.pieces = front ++ [stem ++ ['.']] := by
  have hup : stem ++ '.' :: extension ≠ ['.', '.'] := by
    intro heq
    have hlast : ['.'] <:+ stem ++ '.' :: extension := heq ▸ List.suffix_append ['.'] ['.']
    obtain ⟨c, letters, rfl⟩ := List.exists_cons_of_ne_nil hextension
    have hsuffix : c :: letters <:+ stem ++ '.' :: c :: letters :=
      ⟨stem ++ ['.'], by simp⟩
    have hmem := List.suffix_of_suffix_length_le hlast hsuffix (by simp)
    exact hdot (hmem.subset List.mem_cons_self)
  have hext : path.extension? = some (String.ofList extension) := by
    rw [extension?_of_last h (isIdle_append_dot hstem) hup, cutName_concat hstem hdot]
    rfl
  have htext : path.text.toList =
      ['/'].intercalate (front ++ [stem ++ ['.']]) ++ extension := by
    rw [toList_text, h, ← intercalate_concat_append, List.append_assoc, List.singleton_append]
  unfold cutExtension
  rw [hext]
  simp only [htext, String.length_ofList, List.length_append, Nat.add_sub_cancel,
    List.take_left]
  exact pieces_ofList_intercalate (slash_not_mem_replaced h (by decide)) (by simp)

/-- **Another extension takes the place of the old one.** -/
theorem pieces_withExtension (h : path.pieces = front ++ [stem ++ '.' :: extension])
    (hstem : stem ≠ []) (hdot : '.' ∉ extension) (hextension : extension ≠ [])
    (hplain : stem ≠ ['.']) {new : String} (hnew : '/' ∉ new.toList) :
    (path.withExtension new).pieces = front ++ [stem ++ '.' :: new.toList] := by
  have hbare := pieces_cutExtension h hstem hdot hextension
  have hidle : isIdle (stem ++ ['.']) = false := isIdle_append_dot hstem
  have hname : path.cutExtension.stem? = some (String.ofList stem) := by
    rw [stem?_of_last hbare hidle, if_neg, cutName_concat hstem List.not_mem_nil]
    intro hup
    exact hplain (List.append_cancel_right hup)
  unfold withExtension
  simp only [hname]
  change (⟨String.ofList (['/'].intercalate
    ((trimPieces path.cutExtension.pieces).dropLast ++ [_]))⟩ : Path).pieces = _
  have hlast : (String.ofList stem ++ "." ++ new).toList = stem ++ '.' :: new.toList := by simp
  rw [hbare, trimPieces_concat front hidle, List.dropLast_concat, hlast]
  refine pieces_ofList_intercalate (slash_not_mem_replaced h ?_) (by simp)
  simpa using hnew

/-- A name that is nothing but dots loses its last one. -/
theorem pieces_withExtension_dots (h : path.pieces = front ++ ['.' :: '.' :: extension])
    (hdot : '.' ∉ extension) (hextension : extension ≠ []) (new : String) :
    (path.withExtension new).pieces = front ++ [['.', '.']] := by
  have hbare : path.cutExtension.pieces = front ++ [['.'] ++ ['.']] :=
    pieces_cutExtension h (by simp) hdot hextension
  have hname : path.cutExtension.stem? = none := by
    rw [stem?_of_last hbare rfl]
    rfl
  unfold withExtension
  simp only [hname]
  exact hbare

end

end Path

end NetScribe
