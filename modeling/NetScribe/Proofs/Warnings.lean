import NetScribe.Proofs.Texts

/-!
# Warnings and what is written

The check warns from the survey, before anything is written; the emitter never looks at a survey.
This file says that the two agree on the text: a warning about weights or training data is returned
exactly if the body has a line that uses them and no line that declares them.

Five lines are looked for (`Landmark`). Each node writes the landmarks of its kind and no other,
whatever names, types and values it is given (`marks_ownTexts`): every other line is told from them
by a fixed head (`plain_of_head`), a fixed tail (`plain_of_tail`) or its letters
(`plain_of_isNumeral`). So the landmarks of a body are those of the listing
(`Writes.perm_landmarks`), and the survey reads the same listing.
-/

namespace NetScribe

namespace Java

/-! ## Landmarks -/

/-- A line that tells what a body uses or declares. -/
inductive Landmark where
  /-- An embedded network takes its weights. -/
  | decode
  /-- The weights are declared. -/
  | weights
  /-- An embedded function takes the training data. -/
  | training
  /-- The training data is declared. -/
  | input
  /-- The entry point. -/
  | main
  deriving DecidableEq

namespace Landmark

/-- The text of the line. -/
def text : Landmark → String
  | decode => "((MLEncodable)result).decodeFromArray(WEIGHTS);"
  | weights => "public static final double[] WEIGHTS = \x7b"
  | training => "MLDataSet result = new BasicMLDataSet(INPUT_DATA,IDEAL_DATA);"
  | input => "public static final double[][] INPUT_DATA = \x7b"
  | main => "public static void main(String[] args) \x7b"

def all : List Landmark := [decode, weights, training, input, main]

theorem mem_all (mark : Landmark) : mark ∈ all := by
  cases mark <;> decide

/-- The landmark of a text, if it is one. -/
def ofText? (line : String) : Option Landmark :=
  all.find? fun mark => mark.text == line

/-- No two landmarks have the same text. -/
theorem text_inj : ∀ mark ∈ all, ∀ other ∈ all, mark.text = other.text → mark = other := by
  decide

theorem ofText?_eq_some_iff {line : String} {mark : Landmark} :
    ofText? line = some mark ↔ line = mark.text := by
  constructor
  · intro h
    have hfound : mark.text = line := by simpa using List.find?_some h
    exact hfound.symm
  · intro h
    cases hfound : ofText? line with
    | none =>
      have hnone := List.find?_eq_none.mp hfound mark (mem_all mark)
      simp [h] at hnone
    | some other =>
      have hother : other.text = line := by simpa using List.find?_some hfound
      rw [text_inj other (mem_all other) mark (mem_all mark) (hother.trans h)]

end Landmark

/-- The landmarks among rows, in order; blanks in front of a row do not count. -/
def marks (rows : List String) : List Landmark :=
  (rows.map stripBlanks).filterMap Landmark.ofText?

theorem marks_append (first second : List String) :
    marks (first ++ second) = marks first ++ marks second := by
  simp [marks]

theorem mem_marks {mark : Landmark} {rows : List String} :
    mark ∈ marks rows ↔ mark.text ∈ rows.map stripBlanks := by
  simp [marks, Landmark.ofText?_eq_some_iff]

/-- A landmark occurs as often as its text. -/
theorem count_marks (mark : Landmark) (rows : List String) :
    (marks rows).count mark = (rows.map stripBlanks).count mark.text := by
  rw [marks]
  induction rows.map stripBlanks with
  | nil => rfl
  | cons line rest ih =>
    have hline : Landmark.ofText? line = some mark ↔ line = mark.text :=
      Landmark.ofText?_eq_some_iff
    rw [List.count_cons, ← ih, List.filterMap_cons]
    cases hfound : Landmark.ofText? line with
    | none =>
      have hne : line ≠ mark.text := by simpa [hfound] using hline
      simp [hne]
    | some other =>
      have hiff : other = mark ↔ line = mark.text := by simpa [hfound] using hline
      simp [List.count_cons, hiff]

/-! ## Lines that are no landmarks -/

/-- A text that is no landmark. -/
def IsPlain (text : String) : Prop := ∀ mark ∈ Landmark.all, stripBlanks text ≠ mark.text

instance (text : String) : Decidable (IsPlain text) :=
  List.decidableBAll (fun mark : Landmark => stripBlanks text ≠ mark.text) Landmark.all

theorem marks_of_plain {texts : List String} (h : ∀ text ∈ texts, IsPlain text) :
    marks texts = [] := by
  rw [marks, List.filterMap_eq_nil_iff]
  intro line hline
  obtain ⟨text, htext, rfl⟩ := List.mem_map.mp hline
  refine List.find?_eq_none.mpr fun mark hmark => ?_
  simpa using (h text htext mark hmark).symm

/-- A text whose first character is no blank has nothing to strip. -/
theorem stripBlanks_append {head : String} (hstart : head.toList.head?.any (· != ' ') = true)
    (rest : String) : stripBlanks (head ++ rest) = head ++ rest := by
  rw [← String.toList_inj, toList_stripBlanks, String.toList_append]
  cases hletters : head.toList with
  | nil => simp [hletters] at hstart
  | cons c letters =>
    have hc : ¬ (c == ' ') = true := by simpa [hletters] using hstart
    exact List.dropWhile_cons_of_neg (p := (· == ' ')) hc

theorem stripBlanks_of_head {text : String} (hstart : text.toList.head?.any (· != ' ') = true) :
    stripBlanks text = text := by
  have h := stripBlanks_append hstart ""
  rwa [String.append_empty] at h

/-- A landmark is found in its own line. -/
theorem marks_text (mark : Landmark) : marks [mark.text] = [mark] := by
  have hstart : ∀ mark ∈ Landmark.all, mark.text.toList.head?.any (· != ' ') = true := by decide
  have hkept := stripBlanks_of_head (hstart mark (Landmark.mem_all mark))
  have hfound : Landmark.ofText? mark.text = some mark := Landmark.ofText?_eq_some_iff.mpr rfl
  simp [marks, hkept, hfound]

/-- How lines start that are no landmarks, whatever follows. -/
def plainHeads : List String :=
  ["// ", "\x7b ", "public class ", "public static MLMethod ", "public static MLDataSet ",
   "MLMethod result = methodFactory.create(",
   "MLMethod result = (MLMethod)EncogDirectoryPersistence.loadObject(new File(",
   "MLDataSet result = EncogUtility.loadEGB2Memory(new File("]

/-- How lines end that are no landmarks, whatever stands in front. -/
def plainTails : List String := ["();", "() \x7b", "\";"]

theorem plainHeads_apart : ∀ head ∈ plainHeads,
    head.toList.head?.any (· != ' ') = true ∧
      ∀ mark ∈ Landmark.all, ¬ head.toList <+: mark.text.toList := by
  decide

theorem plainTails_apart : ∀ tail ∈ plainTails,
    tail.toList.head?.any (· != ' ') = true ∧
      ∀ mark ∈ Landmark.all, ¬ tail.toList <:+ mark.text.toList := by
  decide

/-- A text that starts like no landmark. -/
theorem plain_of_head {head : String} (h : head ∈ plainHeads) (rest : String) :
    IsPlain (head ++ rest) := by
  obtain ⟨hstart, hapart⟩ := plainHeads_apart head h
  intro mark hmark heq
  rw [stripBlanks_append hstart] at heq
  refine hapart mark hmark ?_
  rw [← heq, String.toList_append]
  exact List.prefix_append _ _

theorem plain_of_head_append {head : String} (h : head ∈ plainHeads) (middle back : String) :
    IsPlain (head ++ middle ++ back) := by
  rw [String.append_assoc]
  exact plain_of_head h (middle ++ back)

/-- A text that ends like no landmark. Nothing but the front can lose blanks, and the tail stays. -/
theorem plain_of_tail {tail : String} (h : tail ∈ plainTails) (front : String) :
    IsPlain (front ++ tail) := by
  obtain ⟨hstart, hapart⟩ := plainTails_apart tail h
  intro mark hmark heq
  refine hapart mark hmark ?_
  rw [← heq, toList_stripBlanks, String.toList_append, List.dropWhile_append]
  split
  · -- all of the front was blank
    exact ⟨[], by rw [List.nil_append, ← toList_stripBlanks, stripBlanks_of_head hstart]⟩
  · exact List.suffix_append _ _

/-- A text of numerals: every landmark has a letter that is none. -/
theorem plain_of_isNumeral {text : String} (h : ∀ c ∈ text.toList, isNumeral c = true) :
    IsPlain text := by
  have hletter : ∀ mark ∈ Landmark.all, mark.text.toList.any (fun c => !isNumeral c) = true := by
    decide
  intro mark hmark heq
  obtain ⟨c, hc, hnot⟩ := List.any_eq_true.mp (hletter mark hmark)
  rw [← heq, toList_stripBlanks] at hc
  have hnumeral := h c ((List.dropWhile_sublist _).mem hc)
  rw [hnumeral] at hnot
  cases hnot

end Java

open Java

/-! ## The landmarks of a node -/

/-- The landmarks of a node. -/
def Node.landmarks : Mode → Node → List Landmark
  | _, .mainFunction _ => [.main]
  | _, .array name _ => if name = "WEIGHTS" then [.weights] else []
  | .embed, .network _ _ => [.decode]
  | .embed, .embedTraining _ => [.input]
  | .embed, .loadTraining _ _ => [.training]
  | _, _ => []

namespace Java

/-- Only an array of weights opens like the weights. -/
theorem marks_arrayOpening (name : String) :
    marks ["public static final double[] " ++ name ++ " = \x7b"] =
      if name = "WEIGHTS" then [.weights] else [] := by
  by_cases h : name = "WEIGHTS"
  · rw [if_pos h, h]
    decide
  · rw [if_neg h]
    refine marks_of_plain fun text htext mark hmark heq => ?_
    rw [List.mem_singleton.mp htext, String.append_assoc, stripBlanks_append (by decide)] at heq
    -- no landmark but the weights starts like an array
    have hhead : ∀ mark ∈ Landmark.all,
        "public static final double[] ".toList <+: mark.text.toList → mark = .weights := by
      decide
    have hweights : Landmark.weights.text =
        "public static final double[] " ++ ("WEIGHTS" ++ " = \x7b") := by
      decide
    have hmarkEq := hhead mark hmark (by
      rw [← heq, String.toList_append]
      exact List.prefix_append _ _)
    rw [hmarkEq, hweights, String.append_right_inj, String.append_left_inj] at heq
    exact h heq

/-- A function has the landmarks of its inside. -/
theorem marks_helper {opening : String} (h : IsPlain opening) (body : List String) :
    marks (["", opening] ++ body ++ ["return result;", "\x7d"]) = marks body := by
  have hfront : marks ["", opening] = [] := by
    refine marks_of_plain fun text htext => ?_
    rcases List.mem_cons.mp htext with rfl | hopening
    · decide
    · rw [List.mem_singleton.mp hopening]
      exact h
  have hback : marks ["return result;", "\x7d"] = [] := by decide
  rw [marks_append, marks_append, hfront, hback, List.nil_append, List.append_nil]

theorem marks_closing : marks ["\x7d;"] = [] := by
  decide

/-- A table has only the landmark of its opening line. -/
theorem marks_table (opening : String) (values : List (List Binary64)) :
    marks ([opening] ++
        values.map (fun row => "\x7b " ++ numberList defaultPrecision row ++ " \x7d,") ++
        ["\x7d;"]) = marks [opening] := by
  have hrows : marks
      (values.map fun row => "\x7b " ++ numberList defaultPrecision row ++ " \x7d,") = [] := by
    refine marks_of_plain fun text htext => ?_
    obtain ⟨row, -, rfl⟩ := List.mem_map.mp htext
    exact plain_of_head_append (by simp [plainHeads]) _ _
  rw [marks_append, marks_append, hrows, marks_closing, List.append_nil, List.append_nil]

variable {loader : Loader} {mode : Mode}

/-- A network that can be embedded is written with the line that takes its weights. -/
theorem marks_network (name : String) (model : Path)
    (h : mode = .embed → (Node.network name model).Embeddable loader) :
    marks (Layout.ownTexts loader mode (.network name model)) =
      (Node.network name model).landmarks mode := by
  have hopening : IsPlain ("public static MLMethod " ++ name ++ "() \x7b") :=
    plain_of_head_append (by simp [plainHeads]) _ _
  cases mode with
  | link =>
    rw [Layout.ownTexts_linkedNetwork, marks_helper hopening]
    refine marks_of_plain fun text htext => ?_
    rw [List.mem_singleton.mp htext]
    exact plain_of_head_append (by simp [plainHeads]) _ _
  | embed =>
    obtain ⟨⟨kind, _⟩, recipe, hload, rfl⟩ := h rfl
    rw [Layout.ownTexts_embeddedNetwork loader name hload, marks_helper hopening]
    have hfront : marks ["MLMethodFactory methodFactory = new MLMethodFactory();",
        "MLMethod result = methodFactory.create(" ++ quoted recipe.method ++ "," ++
          quoted recipe.architecture ++ ", 0, 0);"] = [] := by
      refine marks_of_plain fun text htext => ?_
      rcases List.mem_cons.mp htext with rfl | hcreate
      · decide
      · rw [List.mem_singleton.mp hcreate]
        simp only [String.append_assoc]
        exact plain_of_head (by simp [plainHeads]) _
    exact (marks_append [_, _] [_]).trans (by rw [hfront]; exact marks_text .decode)

/-- Training data that can be embedded is written with the line that declares it. -/
theorem marks_embedTraining (data : Path)
    (h : mode = .embed → (Node.embedTraining data).Embeddable loader) :
    marks (Layout.ownTexts loader mode (.embedTraining data)) =
      (Node.embedTraining data).landmarks mode := by
  cases mode with
  | link => rfl
  | embed =>
    obtain ⟨dataset, hload⟩ := h rfl
    rw [Layout.ownTexts_embeddedTraining loader hload, marks_append, marks_append,
      Layout.texts_table, Layout.texts_table, marks_table, marks_table]
    change _ = [Landmark.input]
    decide

/-- A function that gives training data is written with the line that takes it. -/
theorem marks_loadTraining (name : String) (data : Path) :
    marks (Layout.ownTexts loader mode (.loadTraining name data)) =
      (Node.loadTraining name data).landmarks mode := by
  have hopening : IsPlain ("public static MLDataSet " ++ name ++ "() \x7b") :=
    plain_of_head_append (by simp [plainHeads]) _ _
  rw [Layout.ownTexts_loadTraining, marks_helper hopening]
  cases mode with
  | link =>
    refine marks_of_plain fun text htext => ?_
    rw [List.mem_singleton.mp htext, Layout.trainingResult_link]
    exact plain_of_head_append (by simp [plainHeads]) _ _
  | embed =>
    exact marks_text .training

/-- The lines of a container around its children. -/
theorem marks_container {opening : String} (h : IsPlain opening) :
    marks ["", opening, "\x7d"] = [] := by
  refine marks_of_plain fun text htext => ?_
  simp only [List.mem_cons, List.not_mem_nil, or_false] at htext
  rcases htext with rfl | rfl | rfl
  · decide
  · exact h
  · decide

/-- A call, set off by an empty line. -/
theorem marks_call (front : String) : marks ["", front ++ "();"] = [] := by
  refine marks_of_plain fun row hrow => ?_
  rcases List.mem_cons.mp hrow with rfl | hcall
  · decide
  · rw [List.mem_singleton.mp hcall]
    exact plain_of_tail (by simp [plainTails]) _

/-- **Every node writes the landmarks of its kind**, whatever it is given to write. -/
theorem marks_ownTexts (node : Node) (h : mode = .embed → node.Embeddable loader) :
    marks (Layout.ownTexts loader mode node) = node.landmarks mode := by
  cases node with
  | comment text =>
    refine (marks_of_plain fun row hrow => ?_).trans (by cases mode <;> rfl)
    rw [List.mem_singleton.mp hrow]
    exact plain_of_head (by simp [plainHeads]) _
  | classDecl name children =>
    refine (marks_container ?_).trans (by cases mode <;> rfl)
    rw [classOpening]
    exact plain_of_head_append (by simp [plainHeads]) _ _
  | mainFunction children =>
    have hmain : marks ["", mainOpening, "\x7d"] = [.main] := by decide
    exact hmain.trans (by cases mode <;> rfl)
  | staticFunction name children =>
    refine (marks_container ?_).trans (by cases mode <;> rfl)
    exact plain_of_tail (by simp [plainTails]) _
  | const name typeName value =>
    refine (marks_of_plain fun row hrow => ?_).trans (by cases mode <;> rfl)
    -- the closing quote of the value stands in front of the semicolon
    have htail : "\"" ++ ";" = "\";" := by decide
    rw [List.mem_singleton.mp hrow]
    simp only [Entry.text, quoted, String.append_assoc, htail]
    simp only [← String.append_assoc]
    exact plain_of_tail (by simp [plainTails]) _
  | call name result =>
    cases result with
    | none => exact (marks_call _).trans (by cases mode <;> rfl)
    | some binding => exact (marks_call _).trans (by cases mode <;> rfl)
  | array name values =>
    have hlines : marks (batchLines defaultPrecision arrayBatch values) = [] :=
      marks_of_plain fun row hrow => plain_of_isNumeral (isNumeral_of_mem_batchLines hrow)
    have htexts : Layout.ownTexts loader mode (.array name values) =
        ["public static final double[] " ++ name ++ " = \x7b"] ++
          batchLines defaultPrecision arrayBatch values ++ ["\x7d;"] :=
      Layout.texts_braced 0 _ _ _
    rw [htexts, marks_append, marks_append, hlines, marks_closing, marks_arrayOpening,
      List.append_nil, List.append_nil]
    cases mode <;> rfl
  | network name model => exact marks_network name model h
  | embedTraining data => exact marks_embedTraining data h
  | loadTraining name data => exact marks_loadTraining name data

end Java

/-! ## The landmarks of a body -/

variable {loader : Loader} {options : Options} {program : Program} {source : Source}

/-- **The landmarks of a body are those of the nodes of its program**, in another order. -/
theorem Writes.perm_landmarks (h : Writes loader options program source) :
    (marks source.body).Perm
      (program.located.flatMap fun place => place.2.landmarks options.mode) := by
  have hnodes : ∀ place ∈ program.located,
      marks (Layout.ownTexts loader options.mode place.2) = place.2.landmarks options.mode :=
    fun place hplace => marks_ownTexts place.2 (h.embeddable hplace)
  rw [List.flatMap_def, ← List.map_congr_left hnodes, ← List.flatMap_def]
  -- landmarks are found row by row, so the order of the rows is all that changes
  have hperm := h.perm_stripped.filterMap Landmark.ofText?
  rw [List.filterMap_flatMap] at hperm
  exact hperm

/-- A landmark is in a body exactly if some node has it. -/
theorem Writes.mem_body_iff (h : Writes loader options program source) (mark : Landmark) :
    mark.text ∈ source.body.map stripBlanks ↔
      ∃ place ∈ program.located, mark ∈ place.2.landmarks options.mode := by
  rw [← mem_marks, h.perm_landmarks.mem_iff, List.mem_flatMap]

/-- The entry points of a body are those of its program. -/
theorem count_main_landmarks (places : List (NodePath × Node)) (mode : Mode) :
    (places.flatMap fun place => place.2.landmarks mode).count .main =
      (places.filterMap fun
        | (path, .mainFunction _) => some path
        | _ => none).length := by
  induction places with
  | nil => rfl
  | cons place rest ih =>
    obtain ⟨path, node⟩ := place
    rw [List.flatMap_cons, List.count_append, ih, List.filterMap_cons]
    cases node with
    | mainFunction children => cases mode <;> simp [Node.landmarks, Nat.add_comm]
    | array name values =>
      by_cases hname : name = "WEIGHTS" <;> cases mode <;> simp [Node.landmarks, hname]
    | _ => cases mode <;> simp [Node.landmarks]

theorem Writes.count_main (h : Writes loader options program source) :
    (source.body.map stripBlanks).count Landmark.main.text = program.mainPaths.length := by
  rw [← count_marks, h.perm_landmarks.count_eq]
  exact count_main_landmarks program.located options.mode

/-! ## The survey and the body

Both are read off the listing, the survey by the kind of a node and the body by its landmarks. -/

namespace Program

variable {path : NodePath} {name : String}

theorem mem_networkPaths :
    path ∈ program.networkPaths ↔
      ∃ name model, (path, Node.network name model) ∈ program.located := by
  rw [networkPaths, List.mem_filterMap]
  constructor
  · rintro ⟨⟨_, node⟩, hplace, hpath⟩
    cases node <;> cases hpath
    exact ⟨_, _, hplace⟩
  · rintro ⟨name, model, hplace⟩
    exact ⟨_, hplace, rfl⟩

theorem mem_loaderPaths :
    path ∈ program.loaderPaths ↔
      ∃ name data, (path, Node.loadTraining name data) ∈ program.located := by
  rw [loaderPaths, List.mem_filterMap]
  constructor
  · rintro ⟨⟨_, node⟩, hplace, hpath⟩
    cases node <;> cases hpath
    exact ⟨_, _, hplace⟩
  · rintro ⟨name, data, hplace⟩
    exact ⟨_, hplace, rfl⟩

theorem mem_arrayNames :
    name ∈ program.arrayNames ↔
      ∃ path values, (path, Node.array name values) ∈ program.located := by
  rw [arrayNames, List.mem_filterMap]
  constructor
  · rintro ⟨⟨path, node⟩, hplace, hname⟩
    cases node <;> cases hname
    exact ⟨_, _, hplace⟩
  · rintro ⟨path, values, hplace⟩
    exact ⟨_, hplace, rfl⟩

theorem embedsTraining_iff :
    program.embedsTraining = true ↔
      ∃ path data, (path, Node.embedTraining data) ∈ program.located := by
  rw [embedsTraining, List.any_eq_true]
  constructor
  · rintro ⟨⟨path, node⟩, hplace, hnode⟩
    cases node <;> cases hnode
    exact ⟨_, _, hplace⟩
  · rintro ⟨path, data, hplace⟩
    exact ⟨_, hplace, rfl⟩

/-- Weights are missed at every network, unless there are weights anywhere. -/
theorem missingWeights_mem_warnings :
    ⟨path, .missingWeights⟩ ∈ program.warnings .embed ↔
      path ∈ program.networkPaths ∧ "WEIGHTS" ∉ program.arrayNames := by
  simp [warnings, and_comm]

/-- Training data is missed by every function that gives it, unless it is embedded anywhere. -/
theorem missingTraining_mem_warnings :
    ⟨path, .missingTraining⟩ ∈ program.warnings .embed ↔
      path ∈ program.loaderPaths ∧ ¬ program.embedsTraining = true := by
  simp [warnings, and_comm]

end Program

/-- Which nodes have a landmark where resources are embedded. -/
theorem Node.mem_landmarks_embed {mark : Landmark} {node : Node} :
    mark ∈ node.landmarks .embed ↔
      match mark with
      | .decode => ∃ name model, node = .network name model
      | .weights => ∃ values, node = .array "WEIGHTS" values
      | .training => ∃ name data, node = .loadTraining name data
      | .input => ∃ data, node = .embedTraining data
      | .main => ∃ children, node = .mainFunction children := by
  cases mark <;> cases node <;> simp [Node.landmarks]

/-- The lines of a body that take or declare something are where the survey found it. -/
theorem Writes.landmark_mem_iff (h : Writes loader options program source)
    (hembed : options.mode = .embed) (mark : Landmark) :
    mark.text ∈ source.body.map stripBlanks ↔
      match mark with
      | .decode => ∃ path, path ∈ program.networkPaths
      | .weights => "WEIGHTS" ∈ program.arrayNames
      | .training => ∃ path, path ∈ program.loaderPaths
      | .input => program.embedsTraining = true
      | .main => ∃ path children, (path, Node.mainFunction children) ∈ program.located := by
  rw [h.mem_body_iff, hembed]
  simp only [Node.mem_landmarks_embed, Prod.exists]
  cases mark with
  | decode =>
    simp only [Program.mem_networkPaths]
    grind
  | weights =>
    rw [Program.mem_arrayNames]
    grind
  | training =>
    simp only [Program.mem_loaderPaths]
    grind
  | input =>
    rw [Program.embedsTraining_iff]
    grind
  | main => grind

/-- **The warnings agree with the body.** Where resources are embedded, weights or training data are
missed exactly if some line takes them and no line declares them; in both modes there is at most one
entry point. -/
theorem warnings_match_body {mode : Mode} {width : Nat} {run : Generation}
    (hrun : compile? loader ⟨mode, width⟩ program = some run) (hok : run.result = .ok source) :
    let rows := source.body.map stripBlanks
    (mode = .embed →
      ((∃ path, ⟨path, .missingWeights⟩ ∈ source.warnings) ↔
        "((MLEncodable)result).decodeFromArray(WEIGHTS);" ∈ rows ∧
          "public static final double[] WEIGHTS = \x7b" ∉ rows) ∧
      ((∃ path, ⟨path, .missingTraining⟩ ∈ source.warnings) ↔
        "MLDataSet result = new BasicMLDataSet(INPUT_DATA,IDEAL_DATA);" ∈ rows ∧
          "public static final double[][] INPUT_DATA = \x7b" ∉ rows)) ∧
    rows.count "public static void main(String[] args) \x7b" ≤ 1 := by
  intro rows
  have hwrites : Writes loader ⟨mode, width⟩ program source := ⟨run, Or.inr hrun, hok⟩
  obtain ⟨hmains, hwarnings, -⟩ := compile_eq_ok (compile?_eq_some hrun ▸ hok)
  refine ⟨?_, hwrites.count_main.trans_le hmains⟩
  rintro rfl
  have hmark := hwrites.landmark_mem_iff rfl
  rw [hwarnings]
  simp only [Program.missingWeights_mem_warnings, Program.missingTraining_mem_warnings,
    exists_and_right]
  exact ⟨and_congr (hmark .decode).symm (not_congr (hmark .weights).symm),
    and_congr (hmark .training).symm (not_congr (hmark .input).symm)⟩

/-- A comment that reads like a declaration of weights declares none, and neither does an array
whose name only ends like theirs. -/
theorem warnings_match_body_undeclared :
    let program : Program :=
      ⟨[.classDecl "Foo"
        [.mainFunction [.call "net" none], .comment "public static final double[] WEIGHTS = \x7b",
         .array "MY_WEIGHTS" [], .network "net" ⟨"net.eg"⟩, .embedTraining ⟨"xor.egb"⟩,
         .loadTraining "data" ⟨"xor.egb"⟩]]⟩
    let loader : Loader :=
      ⟨fun _ => .ok ⟨"BasicNetwork", some ⟨"feedforward", "?:B->?"⟩⟩, fun _ => .ok default⟩
    ∃ source accesses, compile? loader ⟨.embed, 2⟩ program = some ⟨.ok source, accesses⟩ ∧
      source.warnings = [⟨⟨["Foo", "net"]⟩, .missingWeights⟩] ∧
      "public static final double[] WEIGHTS = \x7b" ∉ source.body.map stripBlanks ∧
      "((MLEncodable)result).decodeFromArray(WEIGHTS);" ∈ source.body.map stripBlanks ∧
      (source.body.map stripBlanks).count "public static void main(String[] args) \x7b" ≤ 1 := by
  intro program loader
  obtain ⟨source, accesses, hrun, hwarnings⟩ : ∃ source accesses,
      compile? loader ⟨.embed, 2⟩ program = some ⟨.ok source, accesses⟩ ∧
        source.warnings = [⟨⟨["Foo", "net"]⟩, .missingWeights⟩] :=
    ⟨_, _, compile?_of_writable (writable_of_places 3 (by decide) (by decide)), rfl⟩
  obtain ⟨hembed, hmain⟩ := warnings_match_body hrun rfl
  have hmissing : ∃ path, ⟨path, .missingWeights⟩ ∈ source.warnings :=
    ⟨⟨["Foo", "net"]⟩, by rw [hwarnings]; exact List.mem_singleton_self _⟩
  obtain ⟨hdecode, hweights⟩ := (hembed rfl).1.mp hmissing
  exact ⟨source, accesses, hrun, hwarnings, hweights, hdecode, hmain⟩

end NetScribe
