import NetScribe.Proofs.Imports

/-!
# Lines that stay lines

A body is a list of rows, and its text is read again line by line: a line ends at a line feed, at a
carriage return, or at both together (`terminatedLines`). The two agree if no row has a terminator
of its own (`terminatedLines_rows`).

Names are written as they are, so they have to be free of terminators. Of the other texts, numbers
never have any, a comment is written as it is, and a literal is escaped: its line feeds are, its
carriage returns are not (`oneLine_quoted`). So the rows of a body are single lines exactly if its
comments are and no literal has a carriage return (`Writes.rows_oneLine_iff`).
-/

namespace NetScribe

namespace Java

/-! ## Terminators -/

/-- A character that ends a line. -/
def isTerminator (c : Char) : Bool :=
  c == '\n' || c == '\r'

/-- A text that ends no line. -/
def OneLine (text : String) : Prop := ∀ c ∈ text.toList, isTerminator c = false

instance (text : String) : Decidable (OneLine text) :=
  List.decidableBAll (fun c => isTerminator c = false) text.toList

@[simp] theorem oneLine_append {first second : String} :
    OneLine (first ++ second) ↔ OneLine first ∧ OneLine second := by
  simp only [OneLine, String.toList_append, List.forall_mem_append]

/-- Numbers end no line. -/
theorem oneLine_of_isNumeral {text : String} (h : ∀ c ∈ text.toList, isNumeral c = true) :
    OneLine text := by
  intro c hc
  have hnumeral := h c hc
  by_cases hfeed : c = '\n'
  · rw [hfeed] at hnumeral
    cases hnumeral
  by_cases hreturn : c = '\r'
  · rw [hreturn] at hnumeral
    cases hnumeral
  simp [isTerminator, hfeed, hreturn]

/-- A row ends no line if its text does not. -/
theorem oneLine_row {width : Nat} {entry : Entry} :
    OneLine (entry.row width) ↔ OneLine entry.text := by
  cases entry with
  | blank => exact Iff.rfl
  | line depth text =>
    have hblanks : OneLine (String.ofList (List.replicate (depth * width) ' ')) := by
      intro c hc
      rw [String.toList_ofList] at hc
      rw [List.eq_of_mem_replicate hc]
      rfl
    rw [Entry.row, oneLine_append]
    exact and_iff_right hblanks

/-- Only a carriage return is not escaped. -/
theorem escapeChar_oneLine_iff (c : Char) :
    (∀ d ∈ escapeChar c, isTerminator d = false) ↔ c ≠ '\r' := by
  unfold escapeChar
  split
  · simp [isTerminator]
  · simp [isTerminator]
  · simp [isTerminator]
  · simp [isTerminator]
  · next hfeed _ =>
    have hfeed : c ≠ '\n' := hfeed
    simp [isTerminator, hfeed]

/-- **A literal is one line exactly if its text has no carriage return.** -/
@[simp] theorem oneLine_quoted {text : String} : OneLine (quoted text) ↔ '\r' ∉ text.toList := by
  have hquote : OneLine "\"" := by decide
  have hescape : OneLine (escape text) ↔ '\r' ∉ text.toList := by
    rw [OneLine, escape, String.toList_ofList]
    simp only [List.mem_flatMap, forall_exists_index, and_imp]
    constructor
    · intro h hreturn
      exact (escapeChar_oneLine_iff '\r').mp (fun d hd => h d '\r' hreturn hd) rfl
    · intro h d c hc hd
      exact (escapeChar_oneLine_iff c).mpr (fun hc' => h (hc' ▸ hc)) d hd
  rw [quoted, oneLine_append, oneLine_append, hescape]
  exact ⟨fun h => h.1.2, fun h => ⟨⟨hquote, h⟩, hquote⟩⟩

/-! ## Reading lines -/

/-- The lines of a text, each without what ends it. -/
def terminatedLines : List Char → List (List Char)
  | [] => []
  | '\r' :: '\n' :: rest => [] :: terminatedLines rest
  | c :: rest =>
    if isTerminator c then [] :: terminatedLines rest
    else
      match terminatedLines rest with
      | [] => [[c]]
      | line :: others => (c :: line) :: others

theorem terminatedLines_cons {c : Char} (h : isTerminator c = false) (rest : List Char) :
    terminatedLines (c :: rest) =
      match terminatedLines rest with
      | [] => [[c]]
      | line :: others => (c :: line) :: others := by
  rw [terminatedLines, h]
  · rfl
  · rintro _ rfl
    cases h

/-- A line without terminators is read up to the line feed behind it. -/
theorem terminatedLines_line {line : List Char} (h : ∀ c ∈ line, isTerminator c = false)
    (rest : List Char) :
    terminatedLines (line ++ '\n' :: rest) = line :: terminatedLines rest := by
  induction line with
  | nil => simp [terminatedLines, isTerminator]
  | cons c letters ih =>
    obtain ⟨hc, hletters⟩ := List.forall_mem_cons.mp h
    rw [List.cons_append, terminatedLines_cons hc, ih hletters]

/-- **Rows that end no line are read back.** -/
theorem terminatedLines_rows {rows : List String} (h : ∀ row ∈ rows, OneLine row) :
    terminatedLines (rows.flatMap fun row => row.toList ++ ['\n']) = rows.map String.toList := by
  induction rows with
  | nil => rfl
  | cons row rest ih =>
    obtain ⟨hrow, hrest⟩ := List.forall_mem_cons.mp h
    rw [List.flatMap_cons, List.append_assoc, List.singleton_append, terminatedLines_line hrow,
      ih hrest, List.map_cons]

/-- No line that is read has a terminator. -/
theorem isTerminator_of_mem_terminatedLines {text line : List Char}
    (h : line ∈ terminatedLines text) : ∀ c ∈ line, isTerminator c = false := by
  induction text using terminatedLines.induct generalizing line with
  | case1 => cases h
  | case2 rest ih =>
    rcases List.mem_cons.mp h with rfl | hlater
    · simp
    · exact ih hlater
  | case3 c rest hpair hc ih =>
    rw [terminatedLines, if_pos hc] at h
    · rcases List.mem_cons.mp h with rfl | hlater
      · simp
      · exact ih hlater
    · exact hpair
  | case4 c rest hpair hc hnone ih =>
    have hc : isTerminator c = false := by simpa using hc
    rw [terminatedLines_cons hc, hnone, List.mem_singleton] at h
    rw [h]
    exact List.forall_mem_cons.mpr ⟨hc, by simp⟩
  | case5 c rest hpair hc first others hlines ih =>
    -- `c` goes in front of the first line of the rest
    have hc : isTerminator c = false := by simpa using hc
    rw [terminatedLines_cons hc, hlines] at h
    rcases List.mem_cons.mp h with rfl | hlater
    · exact List.forall_mem_cons.mpr ⟨hc, ih (hlines ▸ List.mem_cons_self)⟩
    · exact ih (hlines ▸ List.mem_cons_of_mem _ hlater)

end Java

open Java

/-! ## The texts of a node -/

namespace Node

/-- The names, type names and variables of a node. -/
def names : Node → List String
  | classDecl name _ => [name]
  | staticFunction name _ => [name]
  | const name typeName _ => [name, typeName]
  | call name none => [name]
  | call name (some result) => [name, result.typeName, result.var]
  | array name _ => [name]
  | network name _ => [name]
  | loadTraining name _ => [name]
  | _ => []

/-- The text of a comment. -/
def comments : Node → List String
  | comment text => [text]
  | _ => []

/-- The texts a node writes as literals: values, references of linked resources, and the recipes of
embedded models. -/
def literals (loader : Loader) : Mode → Node → List String
  | _, const _ _ value => [value]
  | .link, network _ model => [model.text]
  | .link, loadTraining _ data => [data.text]
  | .embed, network _ model =>
    match loader.model model with
    | .ok ⟨_, some recipe⟩ => [recipe.method, recipe.architecture]
    | _ => []
  | _, _ => []

end Node

namespace Java

variable {loader : Loader} {mode : Mode}

/-- A list of texts, each one line. -/
def AllOneLine (texts : List String) : Prop := ∀ text ∈ texts, OneLine text

@[simp] theorem allOneLine_nil : AllOneLine [] := by simp [AllOneLine]

@[simp] theorem allOneLine_cons {text : String} {rest : List String} :
    AllOneLine (text :: rest) ↔ OneLine text ∧ AllOneLine rest := by
  simp [AllOneLine]

@[simp] theorem allOneLine_append {first second : List String} :
    AllOneLine (first ++ second) ↔ AllOneLine first ∧ AllOneLine second := by
  simp only [AllOneLine, List.forall_mem_append]

/-- The closing lines of blocks, and what separates them. -/
theorem oneLine_frame :
    OneLine "" ∧ OneLine "\x7d" ∧ OneLine "\x7d;" ∧ OneLine "return result;" ∧
      OneLine " = \x7b" ∧ OneLine "() \x7b" ∧ OneLine "();" ∧ OneLine " = " := by
  decide

/-- A table of numbers is written on single lines. -/
theorem allOneLine_table (depth : Nat) {name : String} (h : OneLine name)
    (values : List (List Binary64)) :
    AllOneLine ((Layout.table depth name values).map Entry.text) := by
  have hpieces : OneLine "public static final double[][] " ∧ OneLine "\x7b " ∧
      OneLine " \x7d," := by
    decide
  have hrows : AllOneLine
      (values.map fun row => "\x7b " ++ numberList defaultPrecision row ++ " \x7d,") := by
    intro text htext
    obtain ⟨row, -, rfl⟩ := List.mem_map.mp htext
    simp [hpieces, oneLine_of_isNumeral isNumeral_of_mem_numberList]
  rw [Layout.texts_table]
  simp [hpieces, hrows, h, oneLine_frame]

theorem allOneLine_network (name : String) (model : Path) (hname : OneLine name)
    (h : mode = .embed → (Node.network name model).Embeddable loader) :
    AllOneLine (Layout.ownTexts loader mode (.network name model)) ↔
      ∀ text ∈ (Node.network name model).literals loader mode, '\r' ∉ text.toList := by
  have hopening : OneLine "public static MLMethod " := by decide
  cases mode with
  | link =>
    have hpieces :
        OneLine "MLMethod result = (MLMethod)EncogDirectoryPersistence.loadObject(new File(" ∧
          OneLine "));" := by
      decide
    rw [Layout.ownTexts_linkedNetwork]
    simp [Node.literals, hopening, hpieces, hname, oneLine_frame]
  | embed =>
    obtain ⟨⟨kind, _⟩, recipe, hload, rfl⟩ := h rfl
    have hpieces : OneLine "MLMethodFactory methodFactory = new MLMethodFactory();" ∧
        OneLine "MLMethod result = methodFactory.create(" ∧ OneLine "," ∧ OneLine ", 0, 0);" ∧
        OneLine "((MLEncodable)result).decodeFromArray(WEIGHTS);" := by
      decide
    rw [Layout.ownTexts_embeddedNetwork loader name hload]
    simp [Node.literals, hload, hopening, hpieces, hname, oneLine_frame]

theorem allOneLine_loadTraining (name : String) (data : Path) (hname : OneLine name) :
    AllOneLine (Layout.ownTexts loader mode (.loadTraining name data)) ↔
      ∀ text ∈ (Node.loadTraining name data).literals loader mode, '\r' ∉ text.toList := by
  have hopening : OneLine "public static MLDataSet " := by decide
  rw [Layout.ownTexts_loadTraining]
  cases mode with
  | link =>
    have hpieces : OneLine "MLDataSet result = EncogUtility.loadEGB2Memory(new File(" ∧
        OneLine "));" := by
      decide
    rw [Layout.trainingResult_link]
    simp [Node.literals, hopening, hpieces, hname, oneLine_frame]
  | embed =>
    have hresult : OneLine "MLDataSet result = new BasicMLDataSet(INPUT_DATA,IDEAL_DATA);" := by
      decide
    rw [Layout.trainingResult_embed]
    simp [Node.literals, hopening, hresult, hname, oneLine_frame]

/-- **A node with plain names writes single lines exactly if its comment is one and no literal has a
carriage return.** -/
theorem allOneLine_ownTexts {node : Node} (hnames : AllOneLine node.names)
    (h : mode = .embed → node.Embeddable loader) :
    AllOneLine (Layout.ownTexts loader mode node) ↔
      AllOneLine node.comments ∧
        ∀ text ∈ node.literals loader mode, '\r' ∉ text.toList := by
  cases node with
  | comment text =>
    have hslashes : OneLine "// " := by decide
    have htexts : Layout.ownTexts loader mode (.comment text) = ["// " ++ text] := rfl
    cases mode <;> simp [htexts, Node.comments, Node.literals, hslashes]
  | classDecl name children =>
    have hclass : OneLine "public class " ∧ OneLine " \x7b" := by decide
    have htexts : Layout.ownTexts loader mode (.classDecl name children) =
        ["", "public class " ++ name ++ " \x7b", "\x7d"] := rfl
    cases mode <;>
      simp_all [Node.names, Node.comments, Node.literals, oneLine_frame]
  | mainFunction children =>
    have hmain : OneLine "public static void main(String[] args) \x7b" := by decide
    have htexts : Layout.ownTexts loader mode (.mainFunction children) =
        ["", "public static void main(String[] args) \x7b", "\x7d"] := rfl
    cases mode <;> simp [htexts, hmain, Node.comments, Node.literals, oneLine_frame]
  | staticFunction name children =>
    have hfunction : OneLine "public static void " := by decide
    have htexts : Layout.ownTexts loader mode (.staticFunction name children) =
        ["", "public static void " ++ name ++ "() \x7b", "\x7d"] := rfl
    cases mode <;> simp_all [Node.names, Node.comments, Node.literals, oneLine_frame]
  | const name typeName value =>
    have hpieces : OneLine "public static final " ∧ OneLine " " ∧ OneLine ";" := by decide
    have htexts : Layout.ownTexts loader mode (.const name typeName value) =
        ["public static final " ++ typeName ++ " " ++ name ++ " = " ++ quoted value ++ ";"] := rfl
    cases mode <;> simp_all [Node.names, Node.comments, Node.literals, oneLine_frame]
  | call name result =>
    have hblank : OneLine " " := by decide
    cases result with
    | none =>
      have htexts : Layout.ownTexts loader mode (.call name none) = ["", name ++ "();"] := rfl
      cases mode <;> simp_all [Node.names, Node.comments, Node.literals, oneLine_frame]
    | some binding =>
      have htexts : Layout.ownTexts loader mode (.call name (some binding)) =
          ["", binding.typeName ++ " " ++ binding.var ++ " = " ++ name ++ "();"] := rfl
      cases mode <;> simp_all [Node.names, Node.comments, Node.literals, oneLine_frame]
  | array name values =>
    have harray : OneLine "public static final double[] " := by decide
    have hlines : AllOneLine (batchLines defaultPrecision arrayBatch values) :=
      fun row hrow => oneLine_of_isNumeral (isNumeral_of_mem_batchLines hrow)
    have htexts : Layout.ownTexts loader mode (.array name values) =
        ["public static final double[] " ++ name ++ " = \x7b"] ++
          batchLines defaultPrecision arrayBatch values ++ ["\x7d;"] := Layout.texts_braced 0 _ _ _
    cases mode <;> simp_all [Node.names, Node.comments, Node.literals, oneLine_frame]
  | network name model =>
    rw [allOneLine_network name model (hnames name List.mem_cons_self) h]
    exact (and_iff_right allOneLine_nil).symm
  | embedTraining data =>
    cases mode with
    | link => exact ⟨fun _ => ⟨allOneLine_nil, nofun⟩, fun _ => allOneLine_nil⟩
    | embed =>
      obtain ⟨dataset, hload⟩ := h rfl
      have htables : OneLine "INPUT_DATA" ∧ OneLine "IDEAL_DATA" := by decide
      have hinput := allOneLine_table 0 htables.1 (dataset.pairs.map Pair.input)
      have hideal := allOneLine_table 0 htables.2 (dataset.pairs.map Pair.ideal)
      have hblank : AllOneLine [""] := by simp [oneLine_frame]
      rw [Layout.ownTexts_embeddedTraining loader hload, allOneLine_append, allOneLine_append]
      exact ⟨fun _ => ⟨allOneLine_nil, nofun⟩, fun _ => ⟨⟨hinput, hblank⟩, hideal⟩⟩
  | loadTraining name data =>
    rw [allOneLine_loadTraining name data (hnames name List.mem_cons_self)]
    exact (and_iff_right allOneLine_nil).symm

end Java

/-! ## The lines of a source -/

variable {loader : Loader} {options : Options} {program : Program} {source : Source}

/-- **The rows of a body are single lines exactly if its comments are and no literal has a carriage
return.** -/
theorem Writes.rows_oneLine_iff (h : Writes loader options program source)
    (hnames : ∀ place ∈ program.located, AllOneLine place.2.names) :
    AllOneLine source.body ↔
      ∀ place ∈ program.located,
        AllOneLine place.2.comments ∧
          ∀ text ∈ place.2.literals loader options.mode, '\r' ∉ text.toList := by
  have hperm := Layout.perm_ownTexts loader options.mode 0 .top program.nodes
  calc AllOneLine source.body
      ↔ AllOneLine ((Layout.ofNodes loader options.mode 0 program.nodes).map Entry.text) := by
        rw [h.body_eq]
        simp only [AllOneLine, List.forall_mem_map, oneLine_row]
    _ ↔ ∀ place ∈ program.located, AllOneLine (Layout.ownTexts loader options.mode place.2) := by
        simp only [AllOneLine, hperm.mem_iff, List.mem_flatMap]
        exact ⟨fun hall place hplace text htext => hall text ⟨place, hplace, htext⟩,
          fun hall text ⟨place, hplace, htext⟩ => hall place hplace text htext⟩
    _ ↔ _ := forall₂_congr fun place hplace =>
        allOneLine_ownTexts (hnames place hplace) (h.embeddable hplace)

/-- The imports of a source are single lines. -/
theorem Writes.importLines_oneLine (h : Writes loader options program source) :
    AllOneLine (importLines source.imports) := by
  have hentries : ∀ entry ∈ [mlMethod, mlEncodable, mlMethodFactory, directoryPersistence,
      mlDataSet, basicMLDataSet, encogUtility, javaFile], OneLine ("import " ++ entry ++ ";") := by
    decide
  have hasked : ∀ node : Node, ∀ entry ∈ node.imports options.mode,
      OneLine ("import " ++ entry ++ ";") := by
    intro node entry hentry
    refine hentries entry ?_
    revert hentry
    cases node <;> cases options.mode <;> simp [Node.imports] <;> grind
  have hlines : AllOneLine (source.imports.map fun entry => "import " ++ entry ++ ";") := by
    intro line hline
    obtain ⟨entry, hentry, rfl⟩ := List.mem_map.mp hline
    rw [h.imports_eq, List.mem_eraseDups] at hentry
    obtain ⟨place, -, hentry⟩ := List.mem_flatMap.mp hentry
    exact hasked place.2 entry hentry
  rw [importLines_eq, allOneLine_append]
  refine ⟨hlines, ?_⟩
  split
  · exact allOneLine_nil
  · simp [oneLine_frame]

/-- **What keeps the lines of a source.** Where no name ends a line, no row of the body does exactly
if every comment is one line and no literal has a carriage return; a line feed in a literal does no
harm. And exactly then the text of the source, read line by line, is its imports and its body. -/
theorem code_lines_iff (h : Writes loader options program source)
    (hnames : ∀ place ∈ program.located, ∀ name ∈ place.2.names, OneLine name) :
    ((∀ row ∈ source.body, OneLine row) ↔
      ∀ place ∈ program.located, (∀ text ∈ place.2.comments, OneLine text) ∧
        ∀ text ∈ place.2.literals loader options.mode, '\r' ∉ text.toList) ∧
    ((∀ row ∈ source.body, OneLine row) ↔
      terminatedLines source.code.toList =
        (importLines source.imports ++ source.body).map String.toList) := by
  refine ⟨h.rows_oneLine_iff hnames, fun hrows => ?_, fun hlines row hrow => ?_⟩
  · rw [h.toList_code]
    exact terminatedLines_rows (allOneLine_append.mpr ⟨h.importLines_oneLine, hrows⟩)
  · -- a line that was read has no terminator, and every row was read
    have hread : row.toList ∈ terminatedLines source.code.toList := by
      rw [hlines]
      exact List.mem_map_of_mem (List.mem_append_right _ hrow)
    exact isTerminator_of_mem_terminatedLines hread

/-- A literal keeps its line with a line feed in it, but not with a carriage return. -/
theorem code_lines_iff_const :
    let loader : Loader := ⟨fun _ => .ok default, fun _ => .ok default⟩
    let program (value : String) : Program := ⟨[.const "A" "String" value]⟩
    (∃ source, Writes loader ⟨.link, 4⟩ (program "a\nb") source ∧
      ∀ row ∈ source.body, OneLine row) ∧
    ∃ source, Writes loader ⟨.link, 4⟩ (program "a\rb") source ∧
      ¬ ∀ row ∈ source.body, OneLine row := by
  intro loader program
  have hnames : ∀ value, ∀ place ∈ (program value).located, ∀ name ∈ place.2.names,
      OneLine name := by
    intro value place hplace
    rw [List.mem_singleton.mp hplace]
    change ∀ name ∈ ["A", "String"], OneLine name
    decide
  have hwrites : ∀ value, ∃ source, Writes loader ⟨.link, 4⟩ (program value) source :=
    fun value => ⟨_, _, Or.inr rfl, rfl⟩
  obtain ⟨fed, hfed⟩ := hwrites "a\nb"
  obtain ⟨returned, hreturned⟩ := hwrites "a\rb"
  refine ⟨⟨fed, hfed, ?_⟩, returned, hreturned, fun hrows => ?_⟩
  · refine (code_lines_iff hfed (hnames _)).1.mpr fun place hplace => ?_
    rw [List.mem_singleton.mp hplace]
    decide
  · have hplain := (code_lines_iff hreturned (hnames _)).1.mp hrows _ (List.mem_singleton_self _)
    exact absurd (hplain.2 "a\rb" (List.mem_singleton_self _)) (by decide)

/-- The text behind a line feed in a comment is a line of the program. -/
theorem comment_leaves_its_line :
    let program : Program := ⟨[.comment "a\nint x;"]⟩
    ∃ source, generate? ⟨fun _ => .ok default, fun _ => .ok default⟩ ⟨.link, 4⟩ program =
        some ⟨.ok source, []⟩ ∧
      (∀ place ∈ program.located, ∀ name ∈ place.2.names, OneLine name) ∧
      ¬ (∀ row ∈ source.body, OneLine row) ∧
      "int x;".toList ∈ terminatedLines source.code.toList :=
  ⟨_, rfl, by decide, by decide, by decide⟩

end NetScribe
