import NetScribe.Proofs.Layout
import NetScribe.Proofs.Requests

/-!
# The texts of a body

A body is a layout, and a layout has the lines of a container around those of its children. What is
asked of single lines does not depend on that order: `perm_ownTexts` says that the texts of a
layout are the texts its nodes write themselves, node by node in the listing, up to order. A law
about all lines, or about how often a line occurs, is then a law about one node (`perm_stripped`).

The texts of numbers are told from all others by their letters (`isNumeral_of_mem_batchLines`).
-/

namespace NetScribe

namespace Java

/-- The text of an entry; an empty line has none. -/
def Entry.text : Entry → String
  | .blank => ""
  | .line _ text => text

namespace Layout

variable (loader : Loader) (mode : Mode)

/-- The texts of the lines a node writes itself: a container's opening and closing lines, and all
lines of a leaf. -/
def ownTexts (node : Node) : List String :=
  match opening? node with
  | some opening => ["", opening, "\x7d"]
  | none => (ofNode loader mode 0 node).map Entry.text

@[simp] theorem texts_braced (depth : Nat) (opening : String) (body : List String)
    (closing : String) :
    (braced depth opening body closing).map Entry.text = [opening] ++ body ++ [closing] := by
  simp [braced, Entry.text, Function.comp_def]

@[simp] theorem texts_helper (depth : Nat) (opening : String) (body : List String) :
    (helper depth opening body).map Entry.text =
      ["", opening] ++ body ++ ["return result;", "\x7d"] := by
  simp [helper, Entry.text]

@[simp] theorem texts_table (depth : Nat) (name : String) (values : List (List Binary64)) :
    (table depth name values).map Entry.text =
      ["public static final double[][] " ++ name ++ " = \x7b"] ++
        values.map (fun row => "\x7b " ++ numberList defaultPrecision row ++ " \x7d,") ++
        ["\x7d;"] := by
  rw [table, texts_braced]

/-- The texts of a leaf are the same at every depth. -/
theorem texts_leaf (depth : Nat) {node : Node} (h : opening? node = none) :
    (ofNode loader mode depth node).map Entry.text = ownTexts loader mode node := by
  simp only [ownTexts, h]
  cases node with
  | classDecl name children => cases h
  | mainFunction children => cases h
  | staticFunction name children => cases h
  | comment text => rfl
  | const name typeName value => rfl
  | call name result =>
    cases result with
    | none => rfl
    | some binding => rfl
  | array name values => simp only [ofNode, texts_braced]
  | network name model =>
    simp only [ofNode]
    unfold network
    split
    · simp only [texts_helper]
    · simp only [texts_helper]
    · rfl
  | embedTraining data =>
    simp only [ofNode]
    unfold trainingData
    split
    · simp only [List.map_append, texts_table]
    · rfl
  | loadTraining name data => simp only [ofNode, texts_helper]

/-! The functions that give a model or the training data, line by line. -/

theorem ownTexts_linkedNetwork (name : String) (model : Path) :
    ownTexts loader .link (.network name model) =
      ["", "public static MLMethod " ++ name ++ "() \x7b"] ++
        ["MLMethod result = (MLMethod)EncogDirectoryPersistence.loadObject(new File(" ++
          quoted model.text ++ "));"] ++ ["return result;", "\x7d"] :=
  texts_helper 0 _ _

theorem ownTexts_embeddedNetwork (name : String) {model : Path} {kind : String} {recipe : Recipe}
    (h : loader.model model = .ok ⟨kind, some recipe⟩) :
    ownTexts loader .embed (.network name model) =
      ["", "public static MLMethod " ++ name ++ "() \x7b"] ++
        ["MLMethodFactory methodFactory = new MLMethodFactory();",
         "MLMethod result = methodFactory.create(" ++ quoted recipe.method ++ "," ++
           quoted recipe.architecture ++ ", 0, 0);",
         "((MLEncodable)result).decodeFromArray(WEIGHTS);"] ++ ["return result;", "\x7d"] := by
  have hlayout : ownTexts loader .embed (.network name model) =
      (network loader .embed 0 name model).map Entry.text := rfl
  simp only [hlayout, network, h, texts_helper]

theorem ownTexts_loadTraining (name : String) (data : Path) :
    ownTexts loader mode (.loadTraining name data) =
      ["", "public static MLDataSet " ++ name ++ "() \x7b"] ++ [trainingResult mode data] ++
        ["return result;", "\x7d"] :=
  texts_helper 0 _ _

theorem trainingResult_link (data : Path) :
    trainingResult .link data =
      "MLDataSet result = EncogUtility.loadEGB2Memory(new File(" ++ quoted data.text ++ "));" :=
  rfl

theorem trainingResult_embed (data : Path) :
    trainingResult .embed data = "MLDataSet result = new BasicMLDataSet(INPUT_DATA,IDEAL_DATA);" :=
  rfl

theorem ownTexts_embeddedTraining {data : Path} {dataset : Dataset}
    (h : loader.dataset data = .ok dataset) :
    ownTexts loader .embed (.embedTraining data) =
      (table 0 "INPUT_DATA" (dataset.pairs.map Pair.input)).map Entry.text ++ [""] ++
        (table 0 "IDEAL_DATA" (dataset.pairs.map Pair.ideal)).map Entry.text := by
  have hlayout : ownTexts loader .embed (.embedTraining data) =
      (trainingData loader .embed 0 data).map Entry.text := rfl
  simp only [hlayout, trainingData, h, List.map_append, List.map_cons, List.map_nil, Entry.text]

/-- **The texts of a layout are those its nodes write themselves**, in another order: a container
closes behind its children. -/
theorem perm_ownTexts (depth : Nat) (above : NodePath) (nodes : List Node) :
    ((ofNodes loader mode depth nodes).map Entry.text).Perm
      ((Node.locatedAll above nodes).flatMap fun place => ownTexts loader mode place.2) := by
  induction nodes using Node.forestInduction generalizing depth above with
  | nil => exact List.Perm.refl _
  | cons node rest below after =>
    rw [ofNodes, Node.locatedAll_cons, List.map_append, List.flatMap_cons, List.flatMap_append,
      ← List.append_assoc]
    refine List.Perm.append ?_ (after depth above)
    cases h : opening? node with
    | none =>
      rw [children_of_leaf h, texts_leaf loader mode depth h]
      simp
    | some opening =>
      have hinside := below (depth + 1) (above.push node.label)
      have hown : ownTexts loader mode node = ["", opening] ++ ["\x7d"] := by
        simp [ownTexts, h]
      rw [ofNode_container h, container, hown]
      simp only [List.map_append, List.append_assoc]
      -- the closing brace moves in front of what the children write
      refine List.Perm.append_left _ (List.perm_append_comm.trans ?_)
      exact List.Perm.append_left _ hinside

end Layout

/-! ## Rows without their blanks -/

/-- A row from its first character that is no blank. -/
def stripBlanks (row : String) : String :=
  String.ofList (row.toList.dropWhile (· == ' '))

theorem toList_stripBlanks (row : String) :
    (stripBlanks row).toList = row.toList.dropWhile (· == ' ') :=
  String.toList_ofList

/-- Nothing is left of the indentation of a row. -/
theorem stripBlanks_row (width : Nat) (entry : Entry) :
    stripBlanks (entry.row width) = stripBlanks entry.text := by
  cases entry with
  | blank => rfl
  | line depth text =>
    have hblanks : ∀ c ∈ List.replicate (depth * width) ' ', (c == ' ') = true := by
      intro c hc
      rw [List.eq_of_mem_replicate hc]
      rfl
    rw [stripBlanks, Entry.row, String.toList_append, String.toList_ofList,
      List.dropWhile_append_of_pos hblanks]
    rfl

/-! ## Letters of numbers -/

/-- A character of a list of numbers. -/
def isNumeral (c : Char) : Bool :=
  c.isDigit || c == '-' || c == '.' || c == ','

theorem isNumeral_of_isDigit {c : Char} (h : c.isDigit = true) : isNumeral c = true := by
  simp [isNumeral, h]

/-- The digits of a number, filled up with zeros, are digits. -/
theorem isDigit_of_mem_paddedDigits {width n : Nat} {c : Char}
    (h : c ∈ Decimal.paddedDigits width n) : c.isDigit = true := by
  rcases List.mem_append.mp h with hzero | hdigit
  · rw [List.eq_of_mem_replicate hzero]
    rfl
  · exact Nat.isDigit_of_mem_toDigits (by omega) (by omega) hdigit

theorem isDigit_of_mem_fractionDigits {places units : Nat} {c : Char}
    (h : c ∈ Decimal.fractionDigits places units) : c.isDigit = true := by
  have hdrop := List.mem_reverse.mp h
  have hmem := List.mem_reverse.mp ((List.dropWhile_sublist _).mem hdrop)
  exact isDigit_of_mem_paddedDigits hmem

theorem isNumeral_of_mem_fixed {minus : Bool} {units places : Nat} {c : Char}
    (h : c ∈ Decimal.fixed minus units places) : isNumeral c = true := by
  have hsign : ∀ c ∈ (if minus && units != 0 then ['-'] else []), isNumeral c = true := by
    split
    · simp [isNumeral]
    · simp
  have hwhole : ∀ c ∈ Nat.toDigits 10 (units / Nat.pow 10 places), isNumeral c = true :=
    fun c hc => isNumeral_of_isDigit (Nat.isDigit_of_mem_toDigits (by omega) (by omega) hc)
  unfold Decimal.fixed at h
  dsimp only at h
  split at h
  · exact (List.mem_append.mp h).elim (hsign c) (hwhole c)
  · next hfraction =>
    rcases List.mem_append.mp h with hfront | hback
    · exact (List.mem_append.mp hfront).elim (hsign c) (hwhole c)
    · rcases List.mem_cons.mp hback with rfl | hdigit
      · rfl
      · exact isNumeral_of_isDigit (isDigit_of_mem_fractionDigits hdigit)

theorem isNumeral_of_mem_numberText {precision : Nat} {x : Binary64} {c : Char}
    (h : c ∈ (numberText precision x).toList) : isNumeral c = true := by
  rw [numberText] at h
  split at h
  · rw [String.toList_ofList] at h
    exact isNumeral_of_mem_fixed h
  · rw [show "0".toList = ['0'] from rfl, List.mem_singleton] at h
    rw [h]
    rfl

/-- Numbers with commas between them are numerals throughout. -/
theorem isNumeral_of_mem_intercalate {texts : List String}
    (h : ∀ text ∈ texts, ∀ c ∈ text.toList, isNumeral c = true) :
    ∀ c ∈ (",".intercalate texts).toList, isNumeral c = true := by
  induction texts with
  | nil => simp
  | cons text rest ih =>
    obtain ⟨htext, hrest⟩ := List.forall_mem_cons.mp h
    cases rest with
    | nil => simpa using htext
    | cons next rest =>
      intro c hc
      rw [String.intercalate_cons_cons, String.toList_append, String.toList_append] at hc
      rcases List.mem_append.mp hc with hfront | hback
      · rcases List.mem_append.mp hfront with hfirst | hcomma
        · exact htext c hfirst
        · rw [List.mem_singleton.mp hcomma]
          rfl
      · exact ih hrest c hback

/-- What is in a group was in the list. -/
theorem mem_of_mem_groups {α : Type} {size : Nat} {list group : List α} {a : α}
    (hgroup : group ∈ groups size list) (ha : a ∈ group) : a ∈ list := by
  induction list using groups.induct size with
  | case1 => simp [groups] at hgroup
  | case2 first rest ih =>
    rw [groups] at hgroup
    rcases List.mem_cons.mp hgroup with rfl | hlater
    · rcases List.mem_cons.mp ha with rfl | htaken
      · exact List.mem_cons_self
      · exact List.mem_cons_of_mem _ (List.mem_of_mem_take htaken)
    · exact List.mem_cons_of_mem _ (List.mem_of_mem_drop (ih hlater))

theorem isNumeral_of_mem_commaLines {lines : List (List String)}
    (h : ∀ line ∈ lines, ∀ text ∈ line, ∀ c ∈ text.toList, isNumeral c = true) :
    ∀ row ∈ commaLines lines, ∀ c ∈ row.toList, isNumeral c = true := by
  induction lines using commaLines.induct with
  | case1 => simp [commaLines]
  | case2 last =>
    intro row hrow
    rw [commaLines, List.mem_singleton] at hrow
    rw [hrow]
    exact isNumeral_of_mem_intercalate (h last List.mem_cons_self)
  | case3 line next rest ih =>
    obtain ⟨hline, hrest⟩ := List.forall_mem_cons.mp h
    intro row hrow c hc
    rw [commaLines] at hrow
    rcases List.mem_cons.mp hrow with rfl | hlater
    · rw [String.toList_append] at hc
      rcases List.mem_append.mp hc with hnumbers | hcomma
      · exact isNumeral_of_mem_intercalate hline c hnumbers
      · rw [List.mem_singleton.mp hcomma]
        rfl
    · exact ih hrest row hlater c hc

/-- **The lines of an array hold numerals only.** -/
theorem isNumeral_of_mem_batchLines {precision batch : Nat} {values : List Binary64} {row : String}
    (hrow : row ∈ batchLines precision batch values) : ∀ c ∈ row.toList, isNumeral c = true := by
  refine isNumeral_of_mem_commaLines (fun line hline text htext => ?_) row hrow
  obtain ⟨x, -, rfl⟩ := List.mem_map.mp (mem_of_mem_groups hline htext)
  intro c hc
  exact isNumeral_of_mem_numberText hc

/-- And so does a row of a table between its brackets. -/
theorem isNumeral_of_mem_numberList {precision : Nat} {values : List Binary64} :
    ∀ c ∈ (numberList precision values).toList, isNumeral c = true := by
  refine isNumeral_of_mem_intercalate fun text htext => ?_
  obtain ⟨x, -, rfl⟩ := List.mem_map.mp htext
  intro c hc
  exact isNumeral_of_mem_numberText hc

end Java

open Java

/-! ## Written sources -/

variable {loader : Loader} {options : Options} {program : Program} {source : Source}

/-- A run, checked or not, ends with this source. -/
def Writes (loader : Loader) (options : Options) (program : Program) (source : Source) : Prop :=
  ∃ run,
    (generate? loader options program = some run ∨ compile? loader options program = some run) ∧
      run.result = .ok source

/-- What a run ends with was written by the emitter; a check only adds warnings. -/
theorem Writes.exists_generate (h : Writes loader options program source) :
    ∃ written, (generate loader options program).result = .ok written ∧
      source.imports = written.imports ∧ source.body = written.body := by
  obtain ⟨run, hrun | hrun, hok⟩ := h
  · exact ⟨source, generate?_eq_some hrun ▸ hok, rfl, rfl⟩
  · obtain ⟨-, -, hwritten⟩ := compile_eq_ok (compile?_eq_some hrun ▸ hok)
    exact hwritten

/-- The body of a written source is the layout of its program. -/
theorem Writes.body_eq (h : Writes loader options program source) :
    source.body =
      (Layout.ofNodes loader options.mode 0 program.nodes).map (Entry.row options.width) := by
  obtain ⟨written, hwritten, -, hbody⟩ := h.exists_generate
  rw [hbody, body_eq_layout hwritten]

/-- Lines joined by line feeds and ended by one have a line feed behind each. -/
theorem toList_intercalate_lineFeed {lines : List String} (h : lines ≠ []) :
    ("\n".intercalate lines ++ "\n").toList =
      lines.flatMap fun line => line.toList ++ ['\n'] := by
  induction lines with
  | nil => exact absurd rfl h
  | cons line rest ih =>
    cases rest with
    | nil => simp
    | cons next rest =>
      rw [String.intercalate_cons_cons, String.append_assoc, String.toList_append,
        ih (List.cons_ne_nil _ _), List.flatMap_cons, String.toList_append]
      rfl

/-- **The text of a written source has a line feed behind each line**: the imports, the empty line
behind them, and the body. -/
theorem Writes.toList_code (h : Writes loader options program source) :
    source.code.toList =
      (importLines source.imports ++ source.body).flatMap fun line => line.toList ++ ['\n'] := by
  have hne : importLines source.imports ++ source.body ≠ [""] := by
    rw [h.body_eq]
    exact importLines_append_ne_singleton _ (Layout.rows_ne_singleton _ _ _ _ _)
  rw [Source.code, joinLines_eq hne]
  by_cases hnil : importLines source.imports ++ source.body = []
  · rw [if_pos hnil, hnil]
    rfl
  · rw [if_neg hnil, toList_intercalate_lineFeed hnil]

/-- What is written was not refused: where resources are embedded, every node could be. -/
theorem Writes.embeddable (h : Writes loader options program source) {place : NodePath × Node}
    (hplace : place ∈ program.located) (hembed : options.mode = .embed) :
    place.2.Embeddable loader := by
  obtain ⟨written, hwritten, -, -⟩ := h.exists_generate
  cases hscript : (Script.ofProgram loader options.mode program).failure with
  | none =>
    rw [hembed, failure_ofProgram_eq_none_iff] at hscript
    exact hscript place.1.labels place.2 (Program.mem_located.mp hplace)
  | some failure =>
    rw [generate_of_some hscript] at hwritten
    cases hwritten

/-- **The rows of a body without their blanks are what the nodes of the program write themselves**,
in another order. -/
theorem Writes.perm_stripped (h : Writes loader options program source) :
    (source.body.map stripBlanks).Perm
      (program.located.flatMap fun place =>
        (Layout.ownTexts loader options.mode place.2).map stripBlanks) := by
  have hrows : source.body.map stripBlanks =
      ((Layout.ofNodes loader options.mode 0 program.nodes).map Entry.text).map stripBlanks := by
    rw [h.body_eq, List.map_map, List.map_map]
    exact List.map_congr_left fun entry _ => stripBlanks_row _ entry
  rw [hrows, ← List.map_flatMap]
  exact (Layout.perm_ownTexts loader options.mode 0 .top program.nodes).map stripBlanks

end NetScribe
