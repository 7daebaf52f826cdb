import NetScribe.Diagnostic

/-!
# Colours stand around headings only

A diagnostic is rendered plain or coloured. Colours are sequences from an escape character to the
next `m`, and `withoutColours` deletes them wherever they stand, so a message that brought an escape
character along could lose letters.

`Painted` relates a coloured text to its plain one: both are put together from the same clean texts
and words, and each word has a colour in front of it and the reset behind it. A rendered diagnostic
is painted (`painted_render`), since its headings are words and all else is clean; and of painted
texts three things hold whatever they are made of: deleting colours gives the plain text, the plain
text has no escape character, and every colour is reset before its line ends.
-/

namespace NetScribe

namespace Text

/-! ## Lines -/

/-- A text and its lines. A line ends with a line feed, or with a carriage return and a line feed;
behind the last one the ending may be missing. -/
inductive Pieces : List Char → List (List Char) → Prop
  | nil : Pieces [] []
  | last {piece : List Char} : piece ≠ [] → '\n' ∉ piece → Pieces piece [piece]
  | feed {piece rest : List Char} {pieces : List (List Char)} :
      '\n' ∉ piece → piece.getLast? ≠ some '\r' → Pieces rest pieces →
      Pieces (piece ++ '\n' :: rest) (piece :: pieces)
  | returnFeed {piece rest : List Char} {pieces : List (List Char)} :
      '\n' ∉ piece → Pieces rest pieces →
      Pieces (piece ++ '\r' :: '\n' :: rest) (piece :: pieces)

/-- One more character in front of a text lengthens its first line, unless it makes an ending. -/
theorem Pieces.cons {c : Char} {text piece : List Char} {pieces : List (List Char)}
    (h : Pieces text (piece :: pieces)) (hc : c ≠ '\n')
    (hreturn : ∀ rest, c = '\r' → text ≠ '\n' :: rest) :
    Pieces (c :: text) ((c :: piece) :: pieces) := by
  have hpiece : '\n' ∉ piece := by cases h <;> assumption
  have hfirst : '\n' ∉ c :: piece := List.not_mem_cons_of_ne_of_not_mem hc.symm hpiece
  cases h with
  | last => exact .last (List.cons_ne_nil _ _) hfirst
  | feed _ hlast hrest =>
    refine .feed hfirst ?_ hrest
    cases piece with
    | nil => simpa using fun h => hreturn _ h rfl
    | cons d piece => simpa using hlast
  | returnFeed _ hrest => exact .returnFeed hfirst hrest

/-- **A text is split into its lines.** -/
theorem pieces_splitLines (text : List Char) : Pieces text (splitLines text) := by
  fun_induction splitLines text with
  | case1 => exact .nil
  | case2 rest ih => exact .returnFeed List.not_mem_nil ih
  | case3 rest ih => exact .feed List.not_mem_nil (by simp) ih
  | case4 c rest hreturn hfeed hnone ih =>
    rw [hnone] at ih
    cases ih with
    | nil => exact .last (List.cons_ne_nil _ _) (by simpa using fun h => hfeed h.symm)
  | case5 c rest hreturn hfeed line others hsome ih =>
    rw [hsome] at ih
    exact ih.cons hfeed fun rest' => hreturn rest'

/-- What is in a line is in the text. -/
theorem Pieces.subset {text : List Char} {pieces : List (List Char)} (h : Pieces text pieces) :
    ∀ piece ∈ pieces, piece ⊆ text := by
  induction h with
  | nil => simp
  | last => simp
  | feed _ _ _ ih =>
    refine List.forall_mem_cons.mpr ⟨List.subset_append_left _ _, fun piece hpiece => ?_⟩
    exact List.subset_append_of_subset_right _ (List.subset_cons_of_subset _ (ih piece hpiece))
  | returnFeed _ _ ih =>
    refine List.forall_mem_cons.mpr ⟨List.subset_append_left _ _, fun piece hpiece => ?_⟩
    exact List.subset_append_of_subset_right _
      (List.subset_cons_of_subset _ (List.subset_cons_of_subset _ (ih piece hpiece)))

/-! ## Colours -/

/-- The sequence that selects a colour. -/
def colour (parameters : List Char) : List Char :=
  '\x1b' :: '[' :: parameters ++ ['m']

/-- The sequence that goes back to no colour. -/
def reset : List Char := colour ['0']

/-- A text without its colours: what stands from an escape character and a bracket to the next `m`
is deleted. -/
def withoutColours : List Char → List Char
  | [] => []
  | '\x1b' :: '[' :: rest =>
    if 'm' ∈ rest then withoutColours (rest.dropWhile (· != 'm')).tail
    else '\x1b' :: '[' :: withoutColours rest
  | c :: rest => c :: withoutColours rest
termination_by text => text.length
decreasing_by
  · have hle := (rest.dropWhile_suffix (· != 'm')).length_le
    simp only [List.length_tail, List.length_cons]
    omega
  · simp only [List.length_cons]
    omega
  · simp only [List.length_cons]
    omega

/-- Every colour of the text is reset before its line ends. -/
def ColoursReset (text : List Char) : Prop :=
  ∀ before parameters behind, text = before ++ colour parameters ++ behind →
    'm' ∉ parameters → parameters ≠ ['0'] →
    ∃ word rest, behind = word ++ reset ++ rest ∧ '\n' ∉ word

/-- A clean text in front is not touched. -/
theorem withoutColours_append {text : List Char} (h : '\x1b' ∉ text) (rest : List Char) :
    withoutColours (text ++ rest) = text ++ withoutColours rest := by
  induction text with
  | nil => rfl
  | cons c text ih =>
    have hc : c ≠ '\x1b' := (List.ne_of_not_mem_cons h).symm
    rw [List.cons_append, withoutColours, ih (List.not_mem_of_not_mem_cons h), List.cons_append]
    exact fun _ hescape => absurd hescape hc

/-- A colour in front is deleted. -/
theorem withoutColours_colour {parameters : List Char} (h : 'm' ∉ parameters) (rest : List Char) :
    withoutColours (colour parameters ++ rest) = withoutColours rest := by
  have hshape : colour parameters ++ rest = '\x1b' :: '[' :: (parameters ++ 'm' :: rest) := by
    simp [colour]
  have hdrop : (parameters ++ 'm' :: rest).dropWhile (· != 'm') = 'm' :: rest := by
    rw [List.dropWhile_append_of_pos]
    · rfl
    · intro c hc
      exact bne_iff_ne.mpr fun hm => h (hm ▸ hc)
  rw [hshape, withoutColours, if_pos (by simp), hdrop, List.tail_cons]

/-! ## Clean texts -/

/-- A number is written in digits. -/
theorem clean_toString (n : Nat) : '\x1b' ∉ (toString n).toList := by
  intro hmem
  have hdigits : (toString n).toList = Nat.toDigits 10 n := String.toList_ofList
  rw [hdigits] at hmem
  exact absurd (Nat.isDigit_of_mem_toDigits (by omega) (by omega) hmem) (by decide)

theorem clean_append {first second : String} (hfirst : '\x1b' ∉ first.toList)
    (hsecond : '\x1b' ∉ second.toList) : '\x1b' ∉ (first ++ second).toList := by
  rw [String.toList_append, List.mem_append]
  exact fun h => h.elim hfirst hsecond

/-! ## Painted texts -/

/-- A coloured text and the plain one: the same clean texts and words, with each word between a
colour and the reset. -/
inductive Painted : String → String → Prop
  | clean {text : String} : '\x1b' ∉ text.toList → Painted text text
  | word {parameters : List Char} {word : String} :
      '\x1b' ∉ parameters → 'm' ∉ parameters → '\x1b' ∉ word.toList → '\n' ∉ word.toList →
      Painted (String.ofList (colour parameters) ++ word ++ String.ofList reset) word
  | append {coloured plain coloured' plain' : String} :
      Painted coloured plain → Painted coloured' plain' →
      Painted (coloured ++ coloured') (plain ++ plain')

/-- A character that is not in a text stands behind all of it. -/
theorem exists_between {c : Char} {text rest before behind : List Char} (h : c ∉ text)
    (heq : text ++ rest = before ++ c :: behind) :
    ∃ between, before = text ++ between ∧ rest = between ++ c :: behind := by
  rcases List.append_eq_append_iff.mp heq with ⟨between, hbefore, hrest⟩ | ⟨between, htext, hbehind⟩
  · exact ⟨between, hbefore, hrest⟩
  · cases between with
    | nil => exact ⟨[], by simpa using htext.symm, by simpa using hbehind.symm⟩
    | cons d between =>
      obtain ⟨rfl, -⟩ := List.cons.inj hbehind
      exact absurd (by simp [htext]) h

/-- A colour behind a clean text stands behind all of it. -/
theorem exists_between_clean {text rest before parameters behind : List Char} (h : '\x1b' ∉ text)
    (heq : text ++ rest = before ++ colour parameters ++ behind) :
    ∃ between, rest = between ++ colour parameters ++ behind := by
  rw [List.append_assoc] at heq
  obtain ⟨between, -, hrest⟩ := exists_between h heq
  refine ⟨between, ?_⟩
  rw [List.append_assoc]
  exact hrest

/-- A colour in a text that starts with a colour is that one, or stands behind it. -/
theorem eq_or_exists_between {inFront rest before parameters behind : List Char}
    (hescape : '\x1b' ∉ inFront) (hfront : 'm' ∉ inFront) (hm : 'm' ∉ parameters)
    (heq : colour inFront ++ rest = before ++ colour parameters ++ behind) :
    (parameters = inFront ∧ behind = rest) ∨
      ∃ between, rest = between ++ colour parameters ++ behind := by
  cases before with
  | nil =>
    have heq : inFront ++ 'm' :: rest = parameters ++ 'm' :: behind := by simpa [colour] using heq
    obtain ⟨between, hparameters, hrest⟩ := exists_between hfront heq
    cases between with
    | nil =>
      rw [List.append_nil] at hparameters
      exact Or.inl ⟨hparameters, (List.cons.inj hrest).2.symm⟩
    | cons c between =>
      obtain ⟨rfl, -⟩ := List.cons.inj hrest
      exact absurd (by simp [hparameters]) hm
  | cons c before =>
    have heq : '[' :: inFront ++ ['m'] ++ rest = before ++ colour parameters ++ behind :=
      (List.cons.inj heq).2
    exact Or.inr (exists_between_clean (by simp [hescape]) heq)

namespace Painted

variable {coloured plain : String}

/-- The plain text has no escape character. -/
theorem clean_plain (h : Painted coloured plain) : '\x1b' ∉ plain.toList := by
  induction h with
  | clean htext => exact htext
  | word _ _ hword _ => exact hword
  | append _ _ ih ih' =>
    rw [String.toList_append, List.mem_append]
    exact fun h => h.elim ih ih'

/-- **Deleting the colours gives the plain text**, whatever stands behind. -/
theorem withoutColours_append (h : Painted coloured plain) (rest : List Char) :
    withoutColours (coloured.toList ++ rest) = plain.toList ++ withoutColours rest := by
  induction h generalizing rest with
  | clean htext => exact Text.withoutColours_append htext rest
  | word _ hparameters hword _ =>
    have hreset : 'm' ∉ ['0'] := by simp
    simp only [String.toList_append, String.toList_ofList, List.append_assoc]
    rw [withoutColours_colour hparameters, Text.withoutColours_append hword, reset,
      withoutColours_colour hreset]
  | append _ _ ih ih' =>
    rw [String.toList_append, String.toList_append, List.append_assoc, List.append_assoc, ih, ih']

/-- **A colour in a painted text is reset on its line**, unless it stands behind the text. -/
theorem reset_or_behind (h : Painted coloured plain) {rest before parameters behind : List Char}
    (heq : coloured.toList ++ rest = before ++ colour parameters ++ behind)
    (hm : 'm' ∉ parameters) (hcolour : parameters ≠ ['0']) :
    (∃ word tail, behind = word ++ reset ++ tail ∧ '\n' ∉ word) ∨
      ∃ between, rest = between ++ colour parameters ++ behind := by
  induction h generalizing rest before with
  | clean htext => exact Or.inr (exists_between_clean htext heq)
  | word hescape hparameters hword hline =>
    simp only [String.toList_append, String.toList_ofList, List.append_assoc] at heq
    rw [← List.append_assoc before] at heq
    rcases eq_or_exists_between hescape hparameters hm heq with ⟨-, rfl⟩ | ⟨between, heq⟩
    · exact Or.inl ⟨_, _, (List.append_assoc _ _ _).symm, hline⟩
    · -- behind the word comes the reset, which is not the colour looked for
      obtain ⟨between', heq⟩ := exists_between_clean hword heq
      rcases eq_or_exists_between (by simp) (by simp) hm heq with ⟨hreset, -⟩ | hbehind
      · exact absurd hreset hcolour
      · exact Or.inr hbehind
  | append _ _ ih ih' =>
    rw [String.toList_append, List.append_assoc] at heq
    rcases ih heq with hreset | ⟨between, heq⟩
    · exact Or.inl hreset
    · exact ih' heq

theorem coloursReset (h : Painted coloured plain) : ColoursReset coloured.toList := by
  intro before parameters behind heq hm hcolour
  rcases h.reset_or_behind ((List.append_nil _).trans heq) hm hcolour with hreset | ⟨between, hnil⟩
  · exact hreset
  · simp [colour] at hnil

end Painted

end Text

/-! ## Rendered diagnostics -/

open Text

/-- The texts a load fault was given from outside. -/
def LoadFault.texts : LoadFault → List String
  | .unknownModel path => [path.text]
  | .unknownDataset path => [path.text]
  | .ragged .. => []
  | .other message => [message]

/-- The message of a fault is clean if its texts are. -/
theorem LoadFault.clean_message {fault : LoadFault}
    (h : ∀ text ∈ fault.texts, '\x1b' ∉ text.toList) : '\x1b' ∉ fault.message.toList := by
  cases fault with
  | unknownModel path => exact clean_append (by decide) (h path.text (List.mem_singleton_self _))
  | unknownDataset path => exact clean_append (by decide) (h path.text (List.mem_singleton_self _))
  | ragged index input ideal expectedInput expectedIdeal =>
    unfold message
    simp only [String.toList_append, List.mem_append, clean_toString, or_false]
    decide
  | other message => exact h message (List.mem_singleton_self _)

namespace Diagnostic

variable {d : Diagnostic} {file : String}

/-- The texts a diagnostic shows that were given from outside. -/
def texts (d : Diagnostic) (file : String) : List String :=
  [file, d.message] ++ d.path.elim [] NodePath.labels ++ d.help.toList ++
    d.cause.elim [] LoadFault.texts

/-- A line with a heading in a colour. -/
def heading (palette : Palette) (lead colour word text : String) : String :=
  lead ++ colour ++ word ++ palette.reset ++ " " ++ text ++ "\n"

/-- The headings of a diagnostic, which stand above its hint. -/
def headings (palette : Palette) (file : String) (d : Diagnostic) : String :=
  "\n" ++ heading palette " " palette.place "file:" file ++
  heading palette "" palette.error "error:" (d.kind.text ++ ": " ++ d.message) ++
  d.path.elim "" (fun path => heading palette "   " palette.place "at:" path.text) ++
  d.cause.elim "" (fun cause => heading palette "" palette.place "cause:" cause.message)

theorem render_eq (palette : Palette) (file : String) (d : Diagnostic) :
    d.render palette file =
      headings palette file d ++
        d.help.elim "" (fun help => "\n" ++ helpLines palette (Text.lines help)) ++ "\n" := by
  obtain ⟨kind, message, path, help, cause⟩ := d
  unfold render headings heading
  cases path <;> cases help <;> cases cause <;>
    simp only [Option.elim, String.append_assoc, String.append_empty, String.empty_append]

/-- **A heading is painted**: its word is coloured, and the text behind it is not. -/
theorem painted_heading {lead colour word text : String} (parameters : List Char)
    (hcolour : colour = String.ofList (Text.colour parameters) ∧ '\x1b' ∉ parameters ∧
      'm' ∉ parameters)
    (hword : '\x1b' ∉ lead.toList ∧ '\x1b' ∉ word.toList ∧ '\n' ∉ word.toList)
    (htext : '\x1b' ∉ text.toList) :
    Painted (heading .terminal lead colour word text) (heading .plain lead "" word text) := by
  obtain ⟨rfl, hescape, hm⟩ := hcolour
  obtain ⟨hlead, hword, hline⟩ := hword
  have hcoloured : heading .terminal lead (String.ofList (Text.colour parameters)) word text =
      lead ++ (String.ofList (Text.colour parameters) ++ word ++ String.ofList reset) ++
        (" " ++ text ++ "\n") := by
    have hreset : Palette.terminal.reset = String.ofList reset := by decide
    simp only [heading, hreset, String.append_assoc]
  have hplain : heading .plain lead "" word text = lead ++ word ++ (" " ++ text ++ "\n") := by
    have hreset : Palette.plain.reset = "" := rfl
    simp only [heading, hreset, String.append_assoc, String.empty_append]
  rw [hcoloured, hplain]
  refine Painted.append ((Painted.clean hlead).append (.word hescape hm hword hline)) (.clean ?_)
  exact clean_append (clean_append (by decide) htext) (by decide)

/-- The text of a place is clean if its labels are. -/
theorem clean_path {path : NodePath} (h : ∀ label ∈ path.labels, '\x1b' ∉ label.toList) :
    '\x1b' ∉ path.text.toList := by
  obtain ⟨labels⟩ := path
  change '\x1b' ∉ (" > ".intercalate labels).toList
  induction labels with
  | nil => simp
  | cons label rest ih =>
    obtain ⟨hlabel, hrest⟩ := List.forall_mem_cons.mp h
    cases rest with
    | nil => simpa using hlabel
    | cons next rest =>
      rw [String.intercalate_cons_cons]
      exact clean_append (clean_append hlabel (by decide)) (ih hrest)

/-- The lines of a clean text are clean. -/
theorem clean_lines {help : String} (h : '\x1b' ∉ help.toList) :
    ∀ line ∈ Text.lines help, '\x1b' ∉ line.toList := by
  intro line hline hmem
  obtain ⟨piece, hpiece, rfl⟩ := List.mem_map.mp hline
  rw [String.toList_ofList] at hmem
  exact h ((pieces_splitLines help.toList).subset piece hpiece hmem)

/-- Clean lines of a hint are painted: only the first has a heading. -/
theorem painted_helpLines {lines : List String} (h : ∀ line ∈ lines, '\x1b' ∉ line.toList) :
    Painted (helpLines .terminal lines) (helpLines .plain lines) := by
  cases lines with
  | nil => exact .clean (by decide)
  | cons first rest =>
    obtain ⟨hfirst, hrest⟩ := List.forall_mem_cons.mp h
    have hbelow : '\x1b' ∉
        (String.join (rest.map fun line => "       " ++ line ++ "\n")).toList := by
      rw [String.toList_join, List.mem_flatMap]
      rintro ⟨row, hrow, hmem⟩
      obtain ⟨line, hline, rfl⟩ := List.mem_map.mp hrow
      exact clean_append (clean_append (by decide) (hrest line hline)) (by decide) hmem
    have hheading : Painted (heading .terminal " " Palette.terminal.help "help:" first)
        (heading .plain " " "" "help:" first) :=
      painted_heading "1;38;5;73".toList (by decide) (by decide) hfirst
    exact hheading.append (.clean hbelow)

/-- An optional part is painted where it is there. -/
theorem painted_elim {α : Type} {part : Option α} {coloured plain : α → String}
    (h : ∀ a ∈ part, Painted (coloured a) (plain a)) :
    Painted (part.elim "" coloured) (part.elim "" plain) := by
  cases part with
  | none => exact show Painted "" "" from .clean (by decide)
  | some a => exact h a rfl

/-- **A rendered diagnostic is painted**, if the texts it was given are clean. -/
theorem painted_render (h : ∀ text ∈ d.texts file, '\x1b' ∉ text.toList) :
    Painted (d.render .terminal file) (d.render .plain file) := by
  have hplace : Palette.terminal.place = String.ofList (Text.colour ['2']) ∧ '\x1b' ∉ ['2'] ∧
      'm' ∉ ['2'] := by decide
  have herror : Palette.terminal.error = String.ofList (Text.colour "1;31".toList) ∧
      '\x1b' ∉ "1;31".toList ∧ 'm' ∉ "1;31".toList := by decide
  have hlineFeed : Painted "\n" "\n" := .clean (by decide)
  have hkind : '\x1b' ∉ d.kind.text.toList := by cases d.kind <;> decide
  have hfile : '\x1b' ∉ file.toList := h file (by simp [texts])
  have hmessage : '\x1b' ∉ d.message.toList := h d.message (by simp [texts])
  rw [render_eq, render_eq, headings, headings]
  refine (((((hlineFeed.append ?_).append ?_).append ?_).append ?_).append ?_).append hlineFeed
  · exact painted_heading _ hplace (by decide) hfile
  · refine painted_heading _ herror (by decide) ?_
    exact clean_append (clean_append hkind (by decide)) hmessage
  · refine painted_elim fun path hpath => painted_heading _ hplace (by decide) (clean_path ?_)
    intro label hlabel
    exact h label (by simp [texts, Option.mem_def.mp hpath, hlabel])
  · refine painted_elim fun cause hcause => painted_heading _ hplace (by decide) ?_
    refine LoadFault.clean_message fun text htext => h text ?_
    simp [texts, Option.mem_def.mp hcause, htext]
  · refine painted_elim fun help hhelp => hlineFeed.append (painted_helpLines (clean_lines ?_))
    exact h help (by simp [texts, Option.mem_def.mp hhelp])

/-! ## The hint -/

/-- The lines of a plain hint: a heading in front of the first, blanks in front of the others. -/
theorem helpLines_plain (lines : List String) :
    helpLines .plain lines =
      String.join (lines.mapIdx fun i line =>
        (if i = 0 then " help: " else "       ") ++ line ++ "\n") := by
  cases lines with
  | nil => rfl
  | cons first rest =>
    have hfirst : " " ++ Palette.plain.help ++ "help:" ++ Palette.plain.reset ++ " " =
        " help: " := by decide
    have hrest : (rest.mapIdx fun i line =>
          (if i + 1 = 0 then " help: " else "       ") ++ line ++ "\n") =
        rest.map fun line => "       " ++ line ++ "\n" :=
      List.ext_getElem (by simp) (by simp)
    rw [helpLines, hfirst, List.mapIdx_cons, hrest, String.join_cons, if_pos rfl]

/-- The headings end with a line feed. -/
theorem exists_headings_eq (palette : Palette) (file : String) (d : Diagnostic) :
    ∃ front, headings palette file d = front ++ "\n" := by
  -- an optional heading has a line feed of its own, or leaves the one in front of it at the end
  have hoptional : ∀ (before lead colour word : String) (text : Option String),
      (∃ front, before = front ++ "\n") →
      ∃ front, before ++ text.elim "" (heading palette lead colour word) = front ++ "\n" := by
    rintro before lead colour word text ⟨front, rfl⟩
    cases text with
    | none => exact ⟨front, String.append_empty⟩
    | some text => exact ⟨_, String.append_assoc.symm⟩
  have herror : ∃ front, "\n" ++ heading palette " " palette.place "file:" file ++
      heading palette "" palette.error "error:" (d.kind.text ++ ": " ++ d.message) =
        front ++ "\n" := ⟨_, String.append_assoc.symm⟩
  have hplace := hoptional _ "   " palette.place "at:" (d.path.map NodePath.text) herror
  have hcause := hoptional _ "" palette.place "cause:" (d.cause.map LoadFault.message) hplace
  rw [Option.elim_map, Option.elim_map] at hcause
  exact hcause

/-- **Colours stand around headings.** If the texts a diagnostic was given have no escape character,
then deleting the colours of its coloured rendering gives the plain one, each colour is reset before
its line ends, and the plain rendering has no escape character. Whatever the texts, a hint is shown
behind the headings as an empty line and one line for each of its own, ` help: ` in front of the
first and seven blanks in front of the others. -/
theorem colours_around_headings (d : Diagnostic) (file : String) :
    ((∀ text ∈ d.texts file, '\x1b' ∉ text.toList) →
      withoutColours (d.render .terminal file).toList = (d.render .plain file).toList ∧
      ColoursReset (d.render .terminal file).toList ∧
      '\x1b' ∉ (d.render .plain file).toList) ∧
    ∀ help, d.help = some help →
      Pieces help.toList ((Text.lines help).map String.toList) ∧
      ∃ front, { d with help := none }.render .plain file = front ++ "\n" ++ "\n" ∧
        d.render .plain file = front ++ "\n" ++ "\n" ++
          String.join ((Text.lines help).mapIdx fun i line =>
            (if i = 0 then " help: " else "       ") ++ line ++ "\n") ++ "\n" := by
  refine ⟨fun h => ?_, fun help hhelp => ⟨?_, ?_⟩⟩
  · have hpainted := painted_render h
    refine ⟨?_, hpainted.coloursReset, hpainted.clean_plain⟩
    have hdelete := hpainted.withoutColours_append []
    rwa [List.append_nil, withoutColours, List.append_nil] at hdelete
  · have hlines : (Text.lines help).map String.toList = splitLines help.toList := by
      simp [Text.lines]
    rw [hlines]
    exact pieces_splitLines help.toList
  · obtain ⟨front, hfront⟩ := exists_headings_eq .plain file d
    have hbare : headings .plain file { d with help := none } = front ++ "\n" := hfront
    refine ⟨front, ?_, ?_⟩
    · rw [render_eq, hbare]
      exact congrArg (· ++ "\n") String.append_empty
    · rw [render_eq, hfront, hhelp, ← helpLines_plain]
      exact congrArg (· ++ "\n") String.append_assoc.symm

/-- Texts with brackets and letters `m`, and a hint with both kinds of endings and an empty line. -/
theorem colours_around_headings_brackets :
    let d : Diagnostic :=
      { kind := .resourceLoad, message := "[1m", path := some ⟨["Foo", "net"]⟩,
        help := some "a\r\n\nb\r", cause := some (.unknownModel ⟨"[m"⟩) }
    (∀ text ∈ d.texts "m.json", '\x1b' ∉ text.toList) ∧
      d.render .terminal "m.json" ≠ d.render .plain "m.json" ∧
      withoutColours (d.render .terminal "m.json").toList =
        ("\n file: m.json\nerror: Resource load failed: [1m\n   at: Foo > net\n" ++
          "cause: no model registered for [m\n\n help: a\n       \n       b\r\n\n").toList ∧
      Text.lines "a\r\n\nb\r" = ["a", "", "b\r"] ∧
      Pieces "a\r\n\nb\r".toList ((Text.lines "a\r\n\nb\r").map String.toList) := by
  intro d
  obtain ⟨hcolours, hhint⟩ := colours_around_headings d "m.json"
  have hclean : ∀ text ∈ d.texts "m.json", '\x1b' ∉ text.toList := by
    have htexts : d.texts "m.json" = ["m.json", "[1m", "Foo", "net", "a\r\n\nb\r", "[m"] := rfl
    simp only [htexts, List.forall_mem_cons]
    decide
  have hplain : d.render .plain "m.json" =
      "\n file: m.json\nerror: Resource load failed: [1m\n   at: Foo > net\n" ++
        "cause: no model registered for [m\n\n help: a\n       \n       b\r\n\n" := by decide
  exact ⟨hclean, by decide, (hcolours hclean).1.trans (congrArg String.toList hplain), by decide,
    (hhint _ rfl).1⟩

end Diagnostic

end NetScribe
