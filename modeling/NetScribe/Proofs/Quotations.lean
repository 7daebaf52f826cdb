import NetScribe.Proofs.Imports

/-!
# Texts as literals

A text is written between quotes with four characters escaped. `readLiteral` reads it back from
behind the opening quote, and stops at the first quote that no backslash takes with it: whatever the
text holds and whatever follows, what is read is the text and what is left is what follows
(`readLiteral_escape`). One character settles this (`readLiteral_escapeChar`), because escaping goes
character by character; that the four escapes made one after another over the whole text come to
the same is `escapeInTurn_eq`, and holds because the backslash comes first.

`pieces` reads a whole line, program text and literals in turn. A line that is written as program
text around literals is read as just that (`LiteralLine.pieces_text`), so every literal of a written
program starts and ends where it was put.
-/

namespace NetScribe

namespace Java

/-! ## Escapes, one after another -/

/-- A text with every occurrence of a character replaced. -/
def replaceChar (old : Char) (new : List Char) (text : List Char) : List Char :=
  text.flatMap fun c => if c = old then new else [c]

/-- A text after four replacements, each made throughout what the one before it gave. -/
def escapeInTurn (text : List Char) : List Char :=
  replaceChar '\t' ['\\', 't'] (replaceChar '\n' ['\\', 'n']
    (replaceChar '"' ['\\', '"'] (replaceChar '\\' ['\\', '\\'] text)))

theorem replaceChar_append (old : Char) (new first second : List Char) :
    replaceChar old new (first ++ second) =
      replaceChar old new first ++ replaceChar old new second :=
  List.flatMap_append

theorem escapeInTurn_append (first second : List Char) :
    escapeInTurn (first ++ second) = escapeInTurn first ++ escapeInTurn second := by
  simp only [escapeInTurn, replaceChar_append]

/-- No later replacement touches what an earlier one put in. -/
theorem escapeInTurn_singleton (c : Char) : escapeInTurn [c] = escapeChar c := by
  unfold escapeChar
  split
  · rfl
  · rfl
  · rfl
  · rfl
  · next hbackslash hquote hfeed htab =>
    simp [escapeInTurn, replaceChar, if_neg hbackslash, if_neg hquote, if_neg hfeed, if_neg htab]

/-- **Escaping in one go is escaping in turn.** -/
theorem escapeInTurn_eq (text : List Char) : escapeInTurn text = text.flatMap escapeChar := by
  induction text with
  | nil => rfl
  | cons c rest ih =>
    rw [List.flatMap_cons, ← ih, ← escapeInTurn_singleton, ← escapeInTurn_append]
    rfl

/-! ## Reading a literal -/

/-- What a character behind a backslash stands for. -/
def unescaped? : Char → Option Char
  | '\\' => some '\\'
  | '"' => some '"'
  | 'n' => some '\n'
  | 't' => some '\t'
  | _ => none

/-- Read a literal from behind its opening quote: the text it stands for, and what is behind the
first quote that no backslash takes with it. -/
def readLiteral : List Char → Option (List Char × List Char)
  | [] => none
  | '"' :: rest => some ([], rest)
  | '\\' :: c :: rest =>
    (unescaped? c).bind fun letter =>
      (readLiteral rest).map fun read => (letter :: read.1, read.2)
  | c :: rest => (readLiteral rest).map fun read => (c :: read.1, read.2)

/-- **An escaped character is read as the character.** -/
theorem readLiteral_escapeChar (c : Char) (rest : List Char) :
    readLiteral (escapeChar c ++ rest) =
      (readLiteral rest).map fun read => (c :: read.1, read.2) := by
  unfold escapeChar
  -- four characters are written as escapes; any other starts no escape and ends no literal
  split
  · rfl
  · rfl
  · rfl
  · rfl
  · next hbackslash hquote _ _ =>
    rw [List.singleton_append, readLiteral]
    · exact hquote
    · exact fun _ _ hc => absurd hc hbackslash

/-- A text is read from its letters between quotes, in front of anything. -/
theorem readLiteral_letters (text rest : List Char) :
    readLiteral (text.flatMap escapeChar ++ '"' :: rest) = some (text, rest) := by
  induction text with
  | nil => rfl
  | cons c text ih =>
    rw [List.flatMap_cons, List.append_assoc, readLiteral_escapeChar, ih]
    rfl

theorem readLiteral_escape (text : String) (rest : List Char) :
    readLiteral ((escape text).toList ++ '"' :: rest) = some (text.toList, rest) := by
  rw [escape, String.toList_ofList]
  exact readLiteral_letters text.toList rest

/-- What is left is shorter, so a line can be read on from there. -/
theorem length_readLiteral {letters : List Char} {read : List Char × List Char}
    (h : readLiteral letters = some read) : read.2.length < letters.length := by
  induction letters using readLiteral.induct generalizing read with
  | case1 => cases h
  | case2 rest =>
    cases h
    exact Nat.lt_succ_self _
  | case3 c rest ih =>
    rw [readLiteral] at h
    obtain ⟨letter, -, hread⟩ := Option.bind_eq_some_iff.mp h
    obtain ⟨found, hfound, rfl⟩ := Option.map_eq_some_iff.mp hread
    have hless := ih hfound
    simp only [List.length_cons]
    omega
  | case4 c rest hquote hbackslash ih =>
    rw [readLiteral] at h
    · obtain ⟨found, hfound, rfl⟩ := Option.map_eq_some_iff.mp h
      have hless := ih hfound
      simp only [List.length_cons]
      omega
    · exact hquote
    · exact hbackslash

/-- Escaping leaves no line feed and no tab. -/
theorem not_mem_escape (text : String) :
    '\n' ∉ (escape text).toList ∧ '\t' ∉ (escape text).toList := by
  have hletter : ∀ c, '\n' ∉ escapeChar c ∧ '\t' ∉ escapeChar c := by
    intro c
    unfold escapeChar
    split
    · decide
    · decide
    · decide
    · decide
    · next _ _ hfeed htab => simp [Ne.symm hfeed, Ne.symm htab]
  rw [escape, String.toList_ofList]
  constructor
  · intro hmem
    obtain ⟨c, -, hc⟩ := List.mem_flatMap.mp hmem
    exact (hletter c).1 hc
  · intro hmem
    obtain ⟨c, -, hc⟩ := List.mem_flatMap.mp hmem
    exact (hletter c).2 hc

/-! ## Reading a line -/

/-- A piece of a line. -/
inductive Piece where
  /-- Program text. -/
  | code (letters : List Char)
  /-- A literal, by the text it stands for. -/
  | literal (text : List Char)
  deriving DecidableEq

/-- The pieces of a line from some place on, with the program text read up to there. A line with a
literal that does not end or has another escape has none. -/
def pieces (code : List Char) : List Char → Option (List Piece)
  | [] => some [.code code]
  | c :: rest =>
    if c = '"' then
      match _hread : readLiteral rest with
      | none => none
      | some read => (pieces [] read.2).map fun later => .code code :: .literal read.1 :: later
    else pieces (code ++ [c]) rest
termination_by letters => letters.length
decreasing_by
  · have hless := length_readLiteral _hread
    simp only [List.length_cons]
    omega
  · exact Nat.lt_succ_self _

/-- A literal is one piece. -/
theorem pieces_quoted (code : List Char) (text : String) (rest : List Char) :
    pieces code ((quoted text).toList ++ rest) =
      (pieces [] rest).map fun later => .code code :: .literal text.toList :: later := by
  have hletters : (quoted text).toList ++ rest =
      '"' :: ((escape text).toList ++ '"' :: rest) := by
    simp [quoted]
  have hread := readLiteral_escape text rest
  rw [hletters, pieces, if_pos rfl]
  split
  · next hnone =>
    rw [hnone] at hread
    cases hread
  · next read hsome =>
    obtain rfl := Option.some_inj.mp (hsome.symm.trans hread)
    rfl

/-- Program text without quotes is read on as program text. -/
theorem pieces_code (code : List Char) {front : List Char} (h : '"' ∉ front) (rest : List Char) :
    pieces code (front ++ rest) = pieces (code ++ front) rest := by
  induction front generalizing code with
  | nil => rw [List.nil_append, List.append_nil]
  | cons c front ih =>
    have hc : c ≠ '"' := (List.ne_of_not_mem_cons h).symm
    rw [List.cons_append, pieces, if_neg hc, ih _ (List.not_mem_of_not_mem_cons h),
      List.append_assoc]
    rfl

/-! ## Lines with literals -/

/-- A line with literals: the program text in front of them, and each with the program text behind
it, in which no quote stands. -/
structure LiteralLine where
  front : String
  literals : List (String × String)
  closed : ∀ part ∈ literals, '"' ∉ part.2.toList

namespace LiteralLine

/-- The text of a line. -/
def text (line : LiteralLine) : String :=
  line.literals.foldl (fun text part => text ++ quoted part.1 ++ part.2) line.front

/-- What a line is meant to be read as behind the program text in front. -/
def meant (line : LiteralLine) : List Piece :=
  line.literals.flatMap fun part => [.literal part.1.toList, .code part.2.toList]

/-- The letters of a line behind the program text in front. -/
def behind (line : LiteralLine) : List Char :=
  line.literals.flatMap fun part => (quoted part.1).toList ++ part.2.toList

theorem toList_text (line : LiteralLine) :
    line.text.toList = line.front.toList ++ line.behind := by
  obtain ⟨front, literals, closed⟩ := line
  simp only [text, behind]
  clear closed
  induction literals generalizing front with
  | nil => simp
  | cons part rest ih => rw [List.foldl_cons, ih, List.flatMap_cons]; simp

/-- **Literals are read where they were put**, with the program text between and behind them. -/
theorem pieces_behind (line : LiteralLine) (code : List Char) :
    pieces code line.behind = some (.code code :: line.meant) := by
  obtain ⟨front, literals, closed⟩ := line
  simp only [behind, meant]
  induction literals generalizing code with
  | nil => rw [List.flatMap_nil, pieces, List.flatMap_nil]
  | cons part rest ih =>
    obtain ⟨hback, hrest⟩ := List.forall_mem_cons.mp closed
    rw [List.flatMap_cons, List.append_assoc, pieces_quoted, pieces_code _ hback, List.nil_append,
      ih _ hrest, List.flatMap_cons]
    rfl

/-- A line without quotes in front of its literals is read as a whole. -/
theorem pieces_text (line : LiteralLine) {blanks : List Char} (hblanks : '"' ∉ blanks)
    (hfront : '"' ∉ line.front.toList) :
    pieces [] (blanks ++ line.text.toList) =
      some (.code (blanks ++ line.front.toList) :: line.meant) := by
  rw [toList_text, pieces_code _ hblanks, pieces_code _ hfront, pieces_behind, List.nil_append]

end LiteralLine

/-- The lines with literals that a node is written with, as they are meant: a constant with its
value, a function with the file of its model or training data, or with the recipe of its model. -/
def literalLines (loader : Loader) (mode : Mode) : Node → List LiteralLine
  | .const name typeName value =>
    [{ front := "public static final " ++ typeName ++ " " ++ name ++ " = "
       literals := [(value, ";")]
       closed := by simp }]
  | .network _ model =>
    match mode, loader.model model with
    | .link, _ =>
      [{ front := "MLMethod result = (MLMethod)EncogDirectoryPersistence.loadObject(new File("
         literals := [(model.text, "));")]
         closed := by simp }]
    | .embed, .ok ⟨_, some recipe⟩ =>
      [{ front := "MLMethod result = methodFactory.create("
         literals := [(recipe.method, ","), (recipe.architecture, ", 0, 0);")]
         closed := by simp }]
    | .embed, _ => []
  | .loadTraining _ data =>
    match mode with
    | .link =>
      [{ front := "MLDataSet result = EncogUtility.loadEGB2Memory(new File("
         literals := [(data.text, "));")]
         closed := by simp }]
    | .embed => []
  | _ => []

variable {loader : Loader} {mode : Mode}

/-- A line of a function is one deeper than the function. -/
theorem mem_helper {depth : Nat} {opening text : String} {body : List String} (h : text ∈ body) :
    .line (depth + 1) text ∈ Layout.helper depth opening body := by
  simp [Layout.helper, Layout.braced, h]

/-- The lines with literals are lines of the layout. -/
theorem literalLine_mem {node : Node} {line : LiteralLine} (depth : Nat)
    (h : line ∈ literalLines loader mode node) :
    ∃ below, .line below line.text ∈ Layout.ofNode loader mode depth node := by
  cases node with
  | const name typeName value =>
    obtain rfl := List.mem_singleton.mp h
    exact ⟨depth, List.mem_singleton_self _⟩
  | network name model =>
    refine ⟨depth + 1, ?_⟩
    cases mode with
    | link =>
      obtain rfl := List.mem_singleton.mp h
      exact mem_helper (List.mem_singleton_self _)
    | embed =>
      simp only [literalLines, Layout.ofNode, Layout.network] at h ⊢
      generalize loader.model model = answer at h ⊢
      rcases answer with fault | ⟨kind, _ | recipe⟩
      · cases h
      · cases h
      · obtain rfl := List.mem_singleton.mp h
        exact mem_helper (List.mem_cons_of_mem _ List.mem_cons_self)
  | loadTraining name data =>
    cases mode with
    | link =>
      obtain rfl := List.mem_singleton.mp h
      exact ⟨depth + 1, mem_helper (List.mem_singleton_self _)⟩
    | embed => cases h
  | _ => cases h

end Java

open Java

/-- **Literals stand for the texts they were written for.** An escaped text, which is the text with
four characters replaced one after another, has no line feed and no tab, and is read back from
between quotes, in front of anything. So in every written program the line of a constant, and the
line of a function that names a file or a recipe, holds its literals where they were put: behind the
program text in front, which is followed by one literal for each text and the program text between
and behind them; and if that program text has no quote of its own, the row is read so as a whole. -/
theorem literals_denote_texts :
    (∀ text : String, (escape text).toList = escapeInTurn text.toList) ∧
    (∀ text : String, '\n' ∉ (escape text).toList ∧ '\t' ∉ (escape text).toList) ∧
    (∀ (text : String) (rest : List Char),
      readLiteral ((escape text).toList ++ '"' :: rest) = some (text.toList, rest)) ∧
    ∀ loader options program source, Writes loader options program source →
      ∀ place ∈ program.located, ∀ line ∈ literalLines loader options.mode place.2,
        ∃ depth, ∃ row ∈ source.body, ∃ behind,
          let front := List.replicate (depth * options.width) ' ' ++ line.front.toList
          row.toList = front ++ behind ∧
          pieces [] behind = some (.code [] :: line.meant) ∧
          ('"' ∉ line.front.toList → pieces [] row.toList = some (.code front :: line.meant)) := by
  refine ⟨fun text => ?_, not_mem_escape, readLiteral_escape, ?_⟩
  · rw [escape, String.toList_ofList, escapeInTurn_eq]
  intro loader options program source hwrites place hplace line hline
  obtain ⟨depth, hpiece⟩ := Layout.ofNode_within loader options.mode 0 hplace
  obtain ⟨below, hmem⟩ := literalLine_mem depth hline
  have hrow : Entry.row options.width (.line below line.text) ∈ source.body := by
    rw [hwrites.body_eq]
    exact List.mem_map_of_mem (hpiece.mem hmem)
  have hletters : (Entry.row options.width (.line below line.text)).toList =
      List.replicate (below * options.width) ' ' ++ line.text.toList := by
    rw [Entry.row, String.toList_append, String.toList_ofList]
  refine ⟨below, _, hrow, line.behind, ?_, line.pieces_behind [], fun hfront => ?_⟩
  · rw [hletters, line.toList_text, List.append_assoc]
  · rw [hletters]
    refine line.pieces_text (fun hmem => ?_) hfront
    exact absurd (List.eq_of_mem_replicate hmem) (by decide)

/-- A backslash, a quote, a letter that could end an escape, and a backslash in front of the closing
quote. -/
theorem literals_denote_texts_backslashes :
    let program : Program := ⟨[.classDecl "A" [.const "N" "String" "\\\"n\\"]]⟩
    let loader : Loader := ⟨fun _ => .ok default, fun _ => .ok default⟩
    ∃ source, Writes loader ⟨.link, 4⟩ program source ∧ ∃ depth, ∃ row ∈ source.body,
      pieces [] row.toList = some
        [.code (List.replicate (depth * 4) ' ' ++ "public static final String N = ".toList),
         .literal ['\\', '"', 'n', '\\'], .code [';']] := by
  intro program loader
  obtain ⟨source, hrun⟩ : ∃ source,
      compile? loader ⟨.link, 4⟩ program = some ⟨.ok source, []⟩ := ⟨_, rfl⟩
  have hwrites : Writes loader ⟨.link, 4⟩ program source := ⟨_, Or.inr hrun, rfl⟩
  have hplace : (⟨["A", "N"]⟩, .const "N" "String" "\\\"n\\") ∈ program.located :=
    Program.mem_located.mpr (.inside List.mem_cons_self (.here List.mem_cons_self))
  obtain ⟨depth, row, hrow, -, -, -, hwhole⟩ :=
    literals_denote_texts.2.2.2 _ _ _ _ hwrites _ hplace _ (List.mem_singleton_self _)
  exact ⟨source, hwrites, depth, row, hrow, hwhole (by decide)⟩

end NetScribe
