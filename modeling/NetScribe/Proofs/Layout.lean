import NetScribe.Proofs.Depths

/-!
# The layout of a program

A layout is a list of entries, each empty or a text at a depth. It is defined by recursion on the
tree, from the depth it starts at and nothing else: no page, no depth that is moved along and no
width. `body_eq_layout` says that a run that succeeds writes the layout of its program.

What connects the two is `Lays`: steps that write a layout from every page and leave the depth
where it was. A bracket of an opening and a closing line writes its inside one deeper
(`Lays.bracket`), which is the only place where the depth of a page moves; the blocks of the leaves
and the containers are put together from it.
-/

namespace NetScribe.Java

/-- One line of a layout. -/
inductive Entry where
  /-- An empty line. -/
  | blank
  /-- A text at a depth. -/
  | line (depth : Nat) (text : String)
  deriving DecidableEq

/-- An entry as it is written with `width` blanks per depth. -/
def Entry.row (width : Nat) : Entry → String
  | .blank => ""
  | .line depth text => String.ofList (List.replicate (depth * width) ' ') ++ text

namespace Layout

/-- A block: its body is one deeper than its first and last line. -/
def braced (depth : Nat) (opening : String) (body : List String) (closing : String) : List Entry :=
  [.line depth opening] ++ body.map (.line (depth + 1)) ++ [.line depth closing]

/-- A function that gives a result, set off by an empty line. -/
def helper (depth : Nat) (opening : String) (body : List String) : List Entry :=
  [.blank] ++ braced depth opening (body ++ ["return result;"]) "\x7d"

/-- A table of numbers, one row per line. -/
def table (depth : Nat) (name : String) (values : List (List Binary64)) : List Entry :=
  braced depth ("public static final double[][] " ++ name ++ " = \x7b")
    (values.map fun row => "\x7b " ++ numberList defaultPrecision row ++ " \x7d,") "\x7d;"

/-- A container, set off by an empty line. -/
def container (depth : Nat) (opening : String) (children : List Entry) : List Entry :=
  [.blank, .line depth opening] ++ children ++ [.line depth "\x7d"]

variable (loader : Loader) (mode : Mode)

/-- The layout of a network; one that cannot be embedded has none. -/
def network (depth : Nat) (name : String) (model : Path) : List Entry :=
  match mode, loader.model model with
  | .link, _ =>
    helper depth ("public static MLMethod " ++ name ++ "() \x7b")
      ["MLMethod result = (MLMethod)EncogDirectoryPersistence.loadObject(new File(" ++
        quoted model.text ++ "));"]
  | .embed, .ok ⟨_, some recipe⟩ =>
    helper depth ("public static MLMethod " ++ name ++ "() \x7b")
      ["MLMethodFactory methodFactory = new MLMethodFactory();",
       "MLMethod result = methodFactory.create(" ++ quoted recipe.method ++ "," ++
         quoted recipe.architecture ++ ", 0, 0);",
       "((MLEncodable)result).decodeFromArray(WEIGHTS);"]
  | .embed, _ => []

/-- The layout of training data; it is there only if it is embedded. -/
def trainingData (depth : Nat) (data : Path) : List Entry :=
  match mode, loader.dataset data with
  | .embed, .ok dataset =>
    table depth "INPUT_DATA" (dataset.pairs.map Pair.input) ++ [.blank] ++
      table depth "IDEAL_DATA" (dataset.pairs.map Pair.ideal)
  | _, _ => []

/-- The line that gives the training data. -/
def trainingResult (data : Path) : String :=
  match mode with
  | .link => "MLDataSet result = EncogUtility.loadEGB2Memory(new File(" ++ quoted data.text ++ "));"
  | .embed => "MLDataSet result = new BasicMLDataSet(INPUT_DATA,IDEAL_DATA);"

mutual

/-- The layout of a node at a depth. -/
def ofNode (depth : Nat) (node : Node) : List Entry :=
  match node with
  | .classDecl name children =>
    container depth ("public class " ++ name ++ " \x7b") (ofNodes (depth + 1) children)
  | .mainFunction children =>
    container depth "public static void main(String[] args) \x7b" (ofNodes (depth + 1) children)
  | .staticFunction name children =>
    container depth ("public static void " ++ name ++ "() \x7b") (ofNodes (depth + 1) children)
  | .comment text => [.line depth ("// " ++ text)]
  | .const name typeName value =>
    [.line depth
      ("public static final " ++ typeName ++ " " ++ name ++ " = " ++ quoted value ++ ";")]
  | .call name none => [.blank, .line depth (name ++ "();")]
  | .call name (some result) =>
    [.blank, .line depth (result.typeName ++ " " ++ result.var ++ " = " ++ name ++ "();")]
  | .array name values =>
    braced depth ("public static final double[] " ++ name ++ " = \x7b")
      (batchLines defaultPrecision arrayBatch values) "\x7d;"
  | .network name model => network loader mode depth name model
  | .embedTraining data => trainingData loader mode depth data
  | .loadTraining name data =>
    helper depth ("public static MLDataSet " ++ name ++ "() \x7b") [trainingResult mode data]

/-- The layout of nodes in turn, all at one depth. -/
def ofNodes (depth : Nat) : List Node → List Entry
  | [] => []
  | node :: rest => ofNode depth node ++ ofNodes depth rest

end

variable {loader : Loader} {mode : Mode} {depth : Nat} {node : Node} {opening : String}

/-- A container's layout is its opening line, its children one deeper and a closing brace. -/
theorem ofNode_container (h : opening? node = some opening) :
    ofNode loader mode depth node =
      container depth opening (ofNodes loader mode (depth + 1) node.children) := by
  cases node <;> cases h <;> rfl

end Layout

/-! ## Writing a layout -/

namespace Page

/-- The page with the lines of a layout. -/
def write (page : Page) (entries : List Entry) : Page :=
  { page with rows := page.rows ++ (entries.map (Entry.row page.width)).toArray }

@[simp] theorem write_nil (page : Page) : page.write [] = page := by
  simp [write]

theorem write_append (page : Page) (first second : List Entry) :
    page.write (first ++ second) = (page.write first).write second := by
  simp [write]

@[simp] theorem depth_write (page : Page) (entries : List Entry) :
    (page.write entries).depth = page.depth := rfl

theorem lines_write (page : Page) (entries : List Entry) :
    (page.write entries).lines = page.lines ++ entries.map (Entry.row page.width) := by
  simp [write, lines]

/-- A row at a depth is a text behind the blanks of that depth. -/
theorem row_line (width depth : Nat) (text : String) :
    Entry.row width (.line depth text) = indentation width depth ++ text := by
  rw [Entry.row, indentation, Nat.mul_comm]

theorem step_line (page : Page) (text : String) :
    page.step (.line text) = page.write [.line page.depth text] := by
  simp [step, addLine, addRow, write, row_line]

theorem step_blank (page : Page) : page.step .blank = page.write [.blank] := by
  simp [step, addRow, write, Entry.row]

/-- What is written between an opening and a closing line is one deeper, and behind the closing line
the page is as deep as before. -/
theorem step_closing_write_step_opening (page : Page) (opening closing : String)
    (entries : List Entry) :
    ((page.step (.opening opening)).write entries).step (.closing closing) =
      page.write ([.line page.depth opening] ++ entries ++ [.line page.depth closing]) := by
  simp [step, addLine, addRow, write, row_line]

end Page

/-- Steps that write a layout from every page and leave the page as deep as it was. -/
def Lays (steps : List Page.Step) (layout : Nat → List Entry) : Prop :=
  ∀ page : Page, page.run steps = page.write (layout page.depth)

namespace Lays

variable {first second inner : List Page.Step} {l m : Nat → List Entry}

theorem nil : Lays [] fun _ => [] := by
  intro page
  rw [Page.run_nil, Page.write_nil]

theorem blank : Lays [.blank] fun _ => [.blank] := Page.step_blank

theorem line (text : String) : Lays [.line text] fun depth => [.line depth text] := by
  intro page
  exact page.step_line text

/-- Both parts start at the same depth. -/
theorem append (hfirst : Lays first l) (hsecond : Lays second m) :
    Lays (first ++ second) fun depth => l depth ++ m depth := by
  intro page
  rw [Page.run_append, hfirst, hsecond, Page.depth_write, Page.write_append]

theorem lines (texts : List String) :
    Lays (texts.map .line) fun depth => texts.map (.line depth) := by
  induction texts with
  | nil => exact nil
  | cons text rest ih => exact (line text).append ih

/-- **The inside of a bracket is one deeper.** -/
theorem bracket (opening closing : String) (hinner : Lays inner l) :
    Lays ([.opening opening] ++ inner ++ [.closing closing])
      fun depth => [.line depth opening] ++ l (depth + 1) ++ [.line depth closing] := by
  intro page
  have hopened : (page.step (.opening opening)).run inner =
      (page.step (.opening opening)).write (l (page.depth + 1)) := by
    rw [hinner, Page.depth_step]
  rw [Page.run_append, Page.run_append]
  change ((page.step (.opening opening)).run inner).step (.closing closing) = _
  rw [hopened, Page.step_closing_write_step_opening]

theorem helper (opening : String) (body : List String) :
    Lays ([.blank] ++ ([.opening opening] ++ (body ++ ["return result;"]).map .line ++
      [.closing "\x7d"])) fun depth => Layout.helper depth opening body :=
  blank.append ((lines _).bracket _ _)

theorem rows (name : String) (values : List (List Binary64)) :
    Lays (Block.rows name values) fun depth => Layout.table depth name values := by
  have htexts := lines
    (values.map fun row => "\x7b " ++ numberList defaultPrecision row ++ " \x7d,")
  rw [List.map_map] at htexts
  exact htexts.bracket _ _

end Lays

variable {loader : Loader} {mode : Mode}

/-- A network that does not fail is laid out. -/
theorem lays_network (place : NodePath) (name : String) (model : Path)
    (h : (Script.leaf loader mode place (.network name model)).failure = none) :
    Lays (Script.leaf loader mode place (.network name model)).steps
      fun depth => Layout.network loader mode depth name model := by
  cases mode with
  | link => exact Lays.helper _ [_]
  | embed =>
    simp only [Script.leaf, networkBlock, Layout.network] at h ⊢
    cases hload : loader.model model with
    | error cause => simp [hload, Script.request] at h
    | ok found =>
      obtain ⟨kind, recipe⟩ := found
      cases recipe with
      | none => simp [hload, Script.request] at h
      | some recipe => exact Lays.helper _ [_, _, _]

/-- And so is training data. -/
theorem lays_trainingData (place : NodePath) (data : Path)
    (h : (Script.leaf loader mode place (.embedTraining data)).failure = none) :
    Lays (Script.leaf loader mode place (.embedTraining data)).steps
      fun depth => Layout.trainingData loader mode depth data := by
  cases mode with
  | link => exact Lays.nil
  | embed =>
    simp only [Script.leaf, dataBlock, Layout.trainingData] at h ⊢
    cases hload : loader.dataset data with
    | error cause => simp [hload, Script.request] at h
    | ok dataset => exact ((Lays.rows _ _).append Lays.blank).append (Lays.rows _ _)

/-- **Every leaf that does not fail is laid out by its own rule.** -/
theorem lays_leaf {place : NodePath} {node : Node} (hleaf : opening? node = none)
    (h : (Script.leaf loader mode place node).failure = none) :
    Lays (Script.leaf loader mode place node).steps
      fun depth => Layout.ofNode loader mode depth node := by
  cases node with
  | comment text => exact Lays.line _
  | classDecl name children => cases hleaf
  | mainFunction children => cases hleaf
  | staticFunction name children => cases hleaf
  | const name typeName value => exact Lays.line _
  | call name result =>
    cases result with
    | none => exact Lays.blank.append (Lays.line _)
    | some binding => exact Lays.blank.append (Lays.line _)
  | array name values => exact (Lays.lines _).bracket _ _
  | network name model => exact lays_network place name model h
  | embedTraining data => exact lays_trainingData place data h
  | loadTraining name data =>
    cases mode with
    | link => exact Lays.helper _ [_]
    | embed => exact Lays.helper _ [_]

/-- **The script of a tree that does not fail writes the layout of the tree.** The depth it starts
at and what is on the page do not matter. -/
theorem lays_nodes {above : NodePath} {nodes : List Node}
    (h : (Script.ofNodes loader mode above nodes).failure = none) :
    Lays (Script.ofNodes loader mode above nodes).steps
      fun depth => Layout.ofNodes loader mode depth nodes := by
  induction nodes using Node.forestInduction generalizing above with
  | nil => exact Lays.nil
  | cons node rest below after =>
    obtain ⟨hnode, hrest, hsteps⟩ := Script.steps_andThen h
    rw [Script.ofNodes, hsteps]
    refine Lays.append ?_ (after hrest)
    cases hopen : opening? node with
    | none =>
      rw [Script.ofNode_leaf hopen] at hnode ⊢
      exact lays_leaf hopen hnode
    | some opening =>
      rw [Script.ofNode_container hopen] at hnode ⊢
      simp only [Layout.ofNode_container hopen]
      obtain ⟨-, hinner, hsteps⟩ := Script.steps_andThen hnode
      obtain ⟨hchildren, -, hinnerSteps⟩ := Script.steps_andThen hinner
      rw [Script.container, hsteps, hinnerSteps]
      exact Lays.blank.append ((below hchildren).bracket opening "\x7d")

/-! ## No layout is only an empty line

The text of a source is empty when its lines are joined to nothing, and one empty line is joined to
nothing as well. No layout is that line: what sets off a block stands in front of it. -/

namespace Layout

/-- A layout with a line that has letters. -/
def Lettered (entries : List Entry) : Prop :=
  ∃ depth text, .line depth text ∈ entries ∧ text ≠ ""

variable {first second : List Entry}

theorem Lettered.append_left (h : Lettered first) : Lettered (first ++ second) := by
  obtain ⟨depth, text, hmem, hne⟩ := h
  exact ⟨depth, text, List.mem_append_left _ hmem, hne⟩

theorem Lettered.append_right (h : Lettered second) : Lettered (first ++ second) := by
  obtain ⟨depth, text, hmem, hne⟩ := h
  exact ⟨depth, text, List.mem_append_right _ hmem, hne⟩

theorem lettered_line (depth : Nat) {text : String} (h : text ≠ "") :
    Lettered [.line depth text] :=
  ⟨depth, text, List.mem_singleton_self _, h⟩

theorem lettered_helper (depth : Nat) (opening : String) (body : List String) :
    Lettered (helper depth opening body) :=
  (lettered_line depth (by simp)).append_right.append_right

theorem lettered_ofNode (loader : Loader) (mode : Mode) (depth : Nat) (node : Node) :
    ofNode loader mode depth node = [] ∨ Lettered (ofNode loader mode depth node) := by
  cases node with
  | comment text => exact Or.inr (lettered_line depth (by simp))
  | classDecl name children => exact Or.inr (lettered_line depth (by simp)).append_right
  | mainFunction children => exact Or.inr (lettered_line depth (by simp)).append_right
  | staticFunction name children => exact Or.inr (lettered_line depth (by simp)).append_right
  | const name typeName value => exact Or.inr (lettered_line depth (by simp))
  | call name result =>
    have hcall : ∀ text : String, text ≠ "" → Lettered ([.blank] ++ [.line depth text]) :=
      fun _ hne => (lettered_line depth hne).append_right
    cases result with
    | none => exact Or.inr (hcall _ (by simp))
    | some binding => exact Or.inr (hcall _ (by simp))
  | array name values => exact Or.inr (lettered_line depth (by simp)).append_right
  | network name model =>
    rw [ofNode]
    unfold network
    split
    · exact Or.inr (lettered_helper _ _ _)
    · exact Or.inr (lettered_helper _ _ _)
    · exact Or.inl rfl
  | embedTraining data =>
    rw [ofNode]
    unfold trainingData
    split
    · exact Or.inr (lettered_line depth (by simp)).append_right.append_right
    · exact Or.inl rfl
  | loadTraining name data => exact Or.inr (lettered_helper _ _ _)

theorem lettered_ofNodes (loader : Loader) (mode : Mode) (depth : Nat) (nodes : List Node) :
    ofNodes loader mode depth nodes = [] ∨ Lettered (ofNodes loader mode depth nodes) := by
  induction nodes with
  | nil => exact Or.inl rfl
  | cons node rest ih =>
    rw [ofNodes]
    rcases lettered_ofNode loader mode depth node with hnode | hnode
    · rw [hnode, List.nil_append]
      exact ih
    · exact Or.inr hnode.append_left

/-- **No layout is written as one empty line.** -/
theorem rows_ne_singleton (loader : Loader) (mode : Mode) (depth width : Nat) (nodes : List Node) :
    (ofNodes loader mode depth nodes).map (Entry.row width) ≠ [""] := by
  intro h
  rcases lettered_ofNodes loader mode depth nodes with hnil | ⟨d, text, hmem, hne⟩
  · rw [hnil] at h
    cases h
  · have hrow := List.mem_map_of_mem (f := Entry.row width) hmem
    rw [h, List.mem_singleton, Entry.row, String.append_eq_empty_iff] at hrow
    exact hne hrow.2

end Layout

/-- The import lines and the empty line that follows them if there are any. -/
theorem importLines_eq (entries : List String) :
    importLines entries =
      entries.map (fun entry => "import " ++ entry ++ ";") ++
        if entries = [] then [] else [""] := by
  cases entries with
  | nil => rfl
  | cons entry rest => rfl

end NetScribe.Java

namespace NetScribe

open Java

variable {loader : Loader} {options : Options} {program : Program}

/-! ## The text of a source -/

/-- Only no lines and one empty line are joined to nothing. -/
theorem intercalate_lineFeed_eq_empty {lines : List String} :
    "\n".intercalate lines = "" ↔ lines = [] ∨ lines = [""] := by
  match lines with
  | [] => simp
  | [line] => simp
  | first :: second :: rest => simp

/-- Lines that are not one empty line are joined, and ended by a line feed if there are any. -/
theorem joinLines_eq {lines : List String} (h : lines ≠ [""]) :
    joinLines lines = if lines = [] then "" else "\n".intercalate lines ++ "\n" := by
  rw [joinLines]
  by_cases hnil : lines = []
  · rw [if_pos hnil, hnil]
    rfl
  · have hne : ¬ "\n".intercalate lines = "" := by
      intro hempty
      rcases intercalate_lineFeed_eq_empty.mp hempty with h' | h'
      · exact hnil h'
      · exact h h'
    simp [hnil, hne]

/-- **A run that succeeds writes the layout of its program.** -/
theorem body_eq_layout {source : Source}
    (h : (generate loader options program).result = .ok source) :
    source.body =
      (Layout.ofNodes loader options.mode 0 program.nodes).map (Entry.row options.width) := by
  cases hscript : (Script.ofProgram loader options.mode program).failure with
  | none =>
    rw [generate_of_none hscript] at h
    cases h
    change ((Page.empty options.width).run _).lines = _
    rw [Script.ofProgram, lays_nodes hscript, Page.lines_write]
    rfl
  | some failure =>
    rw [generate_of_some hscript] at h
    cases h

/-- The lines of a source whose body is not one empty line are not one empty line. -/
theorem importLines_append_ne_singleton (entries : List String) {body : List String}
    (h : body ≠ [""]) : importLines entries ++ body ≠ [""] := by
  cases entries with
  | nil => exact h
  | cons entry rest =>
    intro hlines
    have hfirst : "import " ++ entry ++ ";" = "" := (List.cons.inj hlines).1
    simp at hfirst

theorem generate?_of_writable (h : options.writable loader program) :
    generate? loader options program = some (generate loader options program) :=
  if_pos h

/-- A run that can be written is the run. -/
theorem generate?_eq_some {run : Generation} (h : generate? loader options program = some run) :
    run = generate loader options program := by
  rw [generate?] at h
  split at h
  · exact (Option.some.inj h).symm
  · cases h

/-- **A run that succeeds refines the layout of its program.** Its body is the layout at depth zero,
whatever the page's width; its text is one line per import, one empty line if there are any imports,
and the body, with a line feed behind each line; and there is no text only if there are no lines. -/
theorem generate_refines_layout {run : Generation} {source : Source}
    (hrun : generate? loader options program = some run) (hok : run.result = .ok source) :
    let lines := source.imports.map (fun entry => "import " ++ entry ++ ";") ++
      (if source.imports = [] then [] else [""]) ++ source.body
    source.body =
        (Layout.ofNodes loader options.mode 0 program.nodes).map (Entry.row options.width) ∧
      source.code = (if lines = [] then "" else "\n".intercalate lines ++ "\n") ∧
      (source.code = "" ↔ lines = []) := by
  intro lines
  have hbody := body_eq_layout (generate?_eq_some hrun ▸ hok)
  have hlines : importLines source.imports ++ source.body = lines := by
    rw [importLines_eq]
  have hne : lines ≠ [""] := by
    rw [← hlines, hbody]
    exact importLines_append_ne_singleton _ (Layout.rows_ne_singleton _ _ _ _ _)
  have hcode : source.code = if lines = [] then "" else "\n".intercalate lines ++ "\n" := by
    rw [Source.code, hlines, joinLines_eq hne]
  refine ⟨hbody, hcode, ?_⟩
  rw [hcode]
  by_cases hnil : lines = []
  · simp [hnil]
  · simp [hnil]

/-- A class with a quoted constant, an array, a main function, an embedded network and embedded
training data, two blanks per depth. -/
theorem generate_refines_layout_network :
    let program : Program :=
      ⟨[.classDecl "Foo"
        [.const "NAME" "String" "a\"b\\c",
         .array "W" [⟨0x3fe0000000000000⟩, ⟨0xbff0000000000000⟩],
         .mainFunction [.call "net" none], .network "net" ⟨"net.eg"⟩,
         .embedTraining ⟨"xor.egb"⟩]]⟩
    let loader : Loader :=
      ⟨fun _ => .ok ⟨"BasicNetwork", some ⟨"feedforward", "?:B->?"⟩⟩,
        fun _ => .ok ⟨[⟨[⟨0x4000000000000000⟩, ⟨0xbff0000000000000⟩], [⟨0x3fe0000000000000⟩]⟩],
          Dataset.fault?_eq_none_iff.mp rfl⟩⟩
    ∃ source, generate? loader ⟨.embed, 2⟩ program =
        some ⟨.ok source, [.model ⟨"net.eg"⟩, .dataset ⟨"xor.egb"⟩]⟩ ∧
      source.body =
        ["",
         "public class Foo \x7b",
         "  public static final String NAME = \"a\\\"b\\\\c\";",
         "  public static final double[] W = \x7b",
         "    0.5,-1",
         "  \x7d;",
         "",
         "  public static void main(String[] args) \x7b",
         "",
         "    net();",
         "  \x7d",
         "",
         "  public static MLMethod net() \x7b",
         "    MLMethodFactory methodFactory = new MLMethodFactory();",
         "    MLMethod result = methodFactory.create(\"feedforward\",\"?:B->?\", 0, 0);",
         "    ((MLEncodable)result).decodeFromArray(WEIGHTS);",
         "    return result;",
         "  \x7d",
         "  public static final double[][] INPUT_DATA = \x7b",
         "    \x7b 2,-1 \x7d,",
         "  \x7d;",
         "",
         "  public static final double[][] IDEAL_DATA = \x7b",
         "    \x7b 0.5 \x7d,",
         "  \x7d;",
         "\x7d"] ∧
      source.code ≠ "" := by
  intro program loader
  obtain ⟨source, hrun⟩ : ∃ source, generate? loader ⟨.embed, 2⟩ program =
      some ⟨.ok source, [.model ⟨"net.eg"⟩, .dataset ⟨"xor.egb"⟩]⟩ :=
    ⟨_, generate?_of_writable (writable_of_places 3 (by decide) (by decide))⟩
  obtain ⟨hbody, -, hcode⟩ := generate_refines_layout hrun rfl
  have hhalf : numberText defaultPrecision ⟨0x3fe0000000000000⟩ = "0.5" := by decide
  have hone : numberText defaultPrecision ⟨0xbff0000000000000⟩ = "-1" := by decide
  have hlines : batchLines defaultPrecision arrayBatch
      [⟨0x3fe0000000000000⟩, ⟨0xbff0000000000000⟩] = ["0.5,-1"] := by
    simp [batchLines, groups, commaLines, arrayBatch, hhalf, hone]
  have hinput : numberList defaultPrecision [⟨0x4000000000000000⟩, ⟨0xbff0000000000000⟩] =
      "2,-1" := by decide
  have hideal : numberList defaultPrecision [⟨0x3fe0000000000000⟩] = "0.5" := by decide
  refine ⟨source, hrun, hbody.trans ?_, fun hempty => ?_⟩
  · simp only [program, loader, Layout.ofNodes, Layout.ofNode, Layout.trainingData, Layout.table,
      List.map_cons, List.map_nil, hlines, hinput, hideal]
    decide
  · have hnil := (List.append_eq_nil_iff.mp (hcode.mp hempty)).2
    rw [hbody] at hnil
    exact absurd hnil (by simp [program, Layout.ofNodes, Layout.ofNode, Layout.container])

end NetScribe
