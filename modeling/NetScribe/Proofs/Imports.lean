import NetScribe.Proofs.Texts

/-!
# Imports and the classes they are for

The rules ask for imports in the middle of what they write. Here each kind of node has its imports
(`Node.imports`), and those of a source are the imports of all nodes in document order, each where
it first occurs (`Writes.imports_eq`).

Whether an import is needed is read off the text. `words` takes a line apart as a reader of the
language would: what stands in a literal is no word, whatever the literal holds (`words_quoted`).
The words of a function that are spelled like classes are then exactly the classes it imports
(`helperClasses_imports`).
-/

namespace NetScribe

namespace Java

/-! ## Imports in turn -/

namespace Imports

/-- **Asking in turn keeps first requests**, behind what was asked for before. -/
theorem entries_addAll (imports : Imports) (entries : List String) :
    (imports.addAll entries).entries =
      imports.entries ++ (entries.filter fun entry => entry ∉ imports.entries).eraseDups := by
  induction entries generalizing imports with
  | nil => simp
  | cons entry rest ih =>
    change ((imports.add entry).addAll rest).entries = _
    rw [ih]
    by_cases held : entry ∈ imports.entries
    · simp [add, held]
    · -- asked for here, it is left out of what is asked for later
      simp only [add, held, if_false, List.filter_cons, not_false_eq_true, decide_true, if_true,
        List.eraseDups_cons, List.append_assoc, List.singleton_append, List.filter_filter,
        List.mem_append, List.mem_singleton, not_or]
      congr 4
      funext other
      by_cases hsame : other = entry
      · simp [hsame]
      · simp [hsame]

theorem nodup_addAll {imports : Imports} (entries : List String) (h : imports.entries.Nodup) :
    (imports.addAll entries).entries.Nodup := by
  induction entries generalizing imports with
  | nil => exact h
  | cons entry rest ih => exact ih (nodup_add entry h)

end Imports

end Java

open Java

/-- What a node asks for. -/
def Node.imports : Mode → Node → List String
  | .link, .network _ _ => [mlMethod, directoryPersistence, javaFile]
  | .embed, .network _ _ => [mlMethod, mlMethodFactory, mlEncodable]
  | .link, .loadTraining _ _ => [mlDataSet, encogUtility, javaFile]
  | .embed, .loadTraining _ _ => [mlDataSet, basicMLDataSet]
  | _, _ => []

namespace Java

variable {loader : Loader} {mode : Mode}

namespace Script

/-- A leaf that does not fail asks for the imports of its kind. -/
theorem imports_leaf {place : NodePath} {node : Node}
    (h : (leaf loader mode place node).failure = none) :
    (leaf loader mode place node).imports = node.imports mode := by
  cases node with
  | network name model =>
    cases mode with
    | link => rfl
    | embed =>
      simp only [leaf] at h ⊢
      cases hblock : networkBlock loader place name model with
      | error failure => simp [hblock, request] at h
      | ok b =>
        unfold networkBlock at hblock
        split at hblock
        · cases hblock
        · split at hblock
          · cases hblock
          · cases hblock
            rfl
  | embedTraining data =>
    cases mode with
    | link => rfl
    | embed =>
      simp only [leaf] at h ⊢
      cases hblock : dataBlock loader place data with
      | error failure => simp [hblock, request] at h
      | ok b =>
        unfold dataBlock at hblock
        split at hblock
        · cases hblock
        · cases hblock
          rfl
  | call name result => cases result <;> cases mode <;> rfl
  | _ => cases mode <;> rfl

/-- **A script that does not fail asks for the imports of its nodes**, in document order. -/
theorem imports_ofNodes {above : NodePath} {nodes : List Node}
    (h : (ofNodes loader mode above nodes).failure = none) :
    (ofNodes loader mode above nodes).imports =
      (Node.locatedAll above nodes).flatMap fun place => place.2.imports mode := by
  induction nodes using Node.forestInduction generalizing above with
  | nil => rfl
  | cons node rest below after =>
    obtain ⟨hnode, hrest, -⟩ := steps_andThen h
    rw [ofNodes, andThen_of_none hnode, Node.locatedAll_cons, List.flatMap_cons,
      List.flatMap_append, ← List.append_assoc, ← after hrest]
    refine congrArg (· ++ _) ?_
    cases hopen : opening? node with
    | none =>
      rw [ofNode_leaf hopen] at hnode ⊢
      rw [children_of_leaf hopen, imports_leaf hnode]
      simp
    | some opening =>
      rw [ofNode_container hopen] at hnode ⊢
      rw [failure_container] at hnode
      have hown : node.imports mode = [] := by
        cases node <;> cases hopen <;> cases mode <;> rfl
      rw [hown, ← below hnode, container, andThen_of_none rfl, andThen_of_none hnode]
      simp

end Script

/-! ## Words of a line -/

/-- Where a reader of a line is. -/
inductive Scan where
  /-- In the program, with the letters of the word it is in, last one first. -/
  | code (word : List Char)
  /-- In a literal. -/
  | literal
  /-- In a literal, behind a backslash. -/
  | escaped
  deriving DecidableEq

namespace Scan

/-- A character of a word. -/
def isWordChar (c : Char) : Bool :=
  c.isAlphanum || c == '_' || c == '$'

/-- Go on by one character; a word is given when it ends. -/
def step : Scan → Char → Scan × List (List Char)
  | .code word, c =>
    if c = '"' then (.literal, [word.reverse])
    else if isWordChar c then (.code (c :: word), [])
    else (.code [], [word.reverse])
  | .literal, c => (if c = '\\' then .escaped else if c = '"' then .code [] else .literal, [])
  | .escaped, _ => (.literal, [])

/-- Go on by a text: where that ends, and the words that ended in it. -/
def run : Scan → List Char → Scan × List (List Char)
  | scan, [] => (scan, [])
  | scan, c :: rest =>
    let next := scan.step c
    let later := run next.1 rest
    (later.1, next.2 ++ later.2)

/-- The word that ends with the line. -/
def last : Scan → List (List Char)
  | .code word => [word.reverse]
  | _ => []

theorem run_append (scan : Scan) (first second : List Char) :
    scan.run (first ++ second) =
      ((run (scan.run first).1 second).1,
        (scan.run first).2 ++ (run (scan.run first).1 second).2) := by
  induction first generalizing scan with
  | nil => rfl
  | cons c rest ih => simp only [List.cons_append, run, ih, List.append_assoc]

/-- An escaped character stays in the literal. -/
theorem run_escapeChar (c : Char) : run .literal (escapeChar c) = (.literal, []) := by
  unfold escapeChar
  split
  · rfl
  · rfl
  · rfl
  · rfl
  · next hbackslash hquote _ _ =>
    simp only [run, step]
    rw [if_neg hbackslash, if_neg hquote]
    rfl

theorem run_escape (text : List Char) :
    run .literal (text.flatMap escapeChar) = (.literal, []) := by
  induction text with
  | nil => rfl
  | cons c rest ih =>
    rw [List.flatMap_cons, run_append, run_escapeChar]
    simp [ih]

/-- **A literal is gone through as a whole**, whatever its text is. -/
theorem run_quoted (word : List Char) (text : String) :
    run (.code word) (quoted text).toList = (.code [], [word.reverse]) := by
  have hopen : run (.code word) "\"".toList = (.literal, [word.reverse]) := rfl
  have hclose : run .literal "\"".toList = (.code [], []) := rfl
  rw [quoted, String.toList_append, String.toList_append, run_append, run_append, hopen, escape,
    String.toList_ofList, run_escape, hclose]
  rfl

end Scan

/-- The words of a line, those between two other characters included as empty ones. -/
def words (line : String) : List (List Char) :=
  let scan := Scan.run (.code []) line.toList
  scan.2 ++ scan.1.last

/-- The words of a literal are not among those of a line. -/
theorem words_quoted {front : String} {w : List Char}
    (h : (Scan.run (.code []) front.toList).1 = .code w) (text back : String) :
    words (front ++ quoted text ++ back) = words front ++ words back := by
  simp only [words, String.toList_append, Scan.run_append, h, Scan.run_quoted, Scan.last,
    List.append_assoc]

/-- A word that is spelled like a class: a capital first, and not only capitals. -/
def isClassName (word : List Char) : Bool :=
  word.head?.any Char.isUpper && word.any Char.isLower

/-- The classes a line names. -/
def classNames (line : String) : List (List Char) :=
  (words line).filter isClassName

theorem classNames_quoted {front : String} {w : List Char}
    (h : (Scan.run (.code []) front.toList).1 = .code w) (text back : String) :
    classNames (front ++ quoted text ++ back) = classNames front ++ classNames back := by
  rw [classNames, words_quoted h, List.filter_append]
  rfl

/-- The name of an imported class without its package. -/
def simpleName (entry : String) : List Char :=
  (entry.toList.reverse.takeWhile (· != '.')).reverse

/-! ## The functions that are written -/

namespace Layout

/-- The lines of a layout that are one deeper than it starts. -/
def inside (entries : List Entry) : List String :=
  entries.filterMap fun
    | .line 1 text => some text
    | _ => none

theorem inside_helper (opening : String) (body : List String) :
    inside (helper 0 opening body) = body ++ ["return result;"] := by
  have hlines : inside (body.map (Entry.line 1)) = body := by
    rw [inside, List.filterMap_map]
    exact List.filterMap_some
  have hsplit : inside (helper 0 opening body) =
      inside (body.map (Entry.line 1)) ++ ["return result;"] := by
    simp [inside, helper, braced]
  rw [hsplit, hlines]

variable (loader mode)

/-- The lines inside the function a node is written as; other nodes are written as none. -/
def helperBody (node : Node) : List String :=
  match node with
  | .network _ _ | .loadTraining _ _ => inside (ofNode loader mode 0 node)
  | _ => []

/-- The classes those lines name. -/
def helperClasses (node : Node) : List (List Char) :=
  (helperBody loader mode node).flatMap classNames

/-- A node that is written as a function is laid out as one, at every depth. -/
theorem helperBody_cases (node : Node) :
    helperBody loader mode node = [] ∨
      ∃ opening body, helperBody loader mode node = body ++ ["return result;"] ∧
        ∀ depth, ofNode loader mode depth node = helper depth opening body := by
  cases node with
  | network name model =>
    simp only [helperBody, ofNode]
    unfold network
    split
    · exact Or.inr ⟨_, _, inside_helper _ _, fun _ => rfl⟩
    · exact Or.inr ⟨_, _, inside_helper _ _, fun _ => rfl⟩
    · exact Or.inl rfl
  | loadTraining name data => exact Or.inr ⟨_, _, inside_helper _ _, fun _ => rfl⟩
  | _ => exact Or.inl rfl

/-- Every node is laid out in one piece, at the depth of its place. -/
theorem ofNode_within {above path : NodePath} {nodes : List Node} {node : Node} (depth : Nat)
    (h : (path, node) ∈ Node.locatedAll above nodes) :
    ∃ below, ofNode loader mode below node <:+: ofNodes loader mode depth nodes := by
  induction nodes using Node.forestInduction generalizing above depth with
  | nil => cases h
  | cons first rest inner after =>
    rw [Node.locatedAll_cons] at h
    rw [ofNodes]
    rcases List.mem_cons.mp h with hsame | hlater
    · cases hsame
      exact ⟨depth, (List.prefix_append _ _).isInfix⟩
    rcases List.mem_append.mp hlater with hinner | hrest
    · obtain ⟨below, hpiece⟩ := inner (depth + 1) hinner
      -- a leaf has nothing below it
      have hopen : ∃ opening, opening? first = some opening := by
        cases hleaf : opening? first with
        | none =>
          rw [children_of_leaf hleaf] at hinner
          cases hinner
        | some opening => exact ⟨opening, rfl⟩
      obtain ⟨opening, hopen⟩ := hopen
      refine ⟨below, hpiece.trans ?_⟩
      rw [ofNode_container hopen, container]
      exact (List.infix_append _ _ _).trans (List.prefix_append _ _).isInfix
    · obtain ⟨below, hpiece⟩ := after depth hrest
      exact ⟨below, hpiece.trans (List.suffix_append _ _).isInfix⟩

/-- The lines inside a function stand together in the rows of a layout. -/
theorem helperBody_within {above path : NodePath} {nodes : List Node} {node : Node}
    (depth width : Nat) (h : (path, node) ∈ Node.locatedAll above nodes) :
    ∃ below, (helperBody loader mode node).map (fun text => Entry.row width (.line below text)) <:+:
      (ofNodes loader mode depth nodes).map (Entry.row width) := by
  rcases helperBody_cases loader mode node with hnone | ⟨opening, body, hbody, hlayout⟩
  · rw [hnone]
    exact ⟨0, List.nil_infix⟩
  · obtain ⟨below, hpiece⟩ := ofNode_within loader mode depth h
    rw [hlayout below] at hpiece
    refine ⟨below + 1, List.IsInfix.trans ?_ (hpiece.map (Entry.row width))⟩
    refine ⟨["", Entry.row width (.line below opening)], [Entry.row width (.line below "\x7d")], ?_⟩
    simp [hbody, helper, braced, Entry.row]

variable {loader mode}

/-- Lists with the same members. -/
def SameMembers (first second : List (List Char)) : Prop :=
  (∀ name ∈ first, name ∈ second) ∧ ∀ name ∈ second, name ∈ first

instance (first second : List (List Char)) : Decidable (SameMembers first second) :=
  inferInstanceAs (Decidable (_ ∧ _))

theorem helperClasses_linkedNetwork (name : String) (model : Path) :
    SameMembers (helperClasses loader .link (.network name model))
      ([mlMethod, directoryPersistence, javaFile].map simpleName) := by
  have hbody : helperBody loader .link (.network name model) =
      ["MLMethod result = (MLMethod)EncogDirectoryPersistence.loadObject(new File(" ++
        quoted model.text ++ "));"] ++ ["return result;"] := inside_helper _ _
  rw [helperClasses, hbody, List.flatMap_append, List.flatMap_singleton,
    classNames_quoted (w := []) (by decide +kernel)]
  decide +kernel

theorem helperClasses_embeddedNetwork (name : String) {model : Path} {kind : String}
    {recipe : Recipe} (h : loader.model model = .ok ⟨kind, some recipe⟩) :
    SameMembers (helperClasses loader .embed (.network name model))
      ([mlMethod, mlMethodFactory, mlEncodable].map simpleName) := by
  have hbody : helperBody loader .embed (.network name model) =
      ["MLMethodFactory methodFactory = new MLMethodFactory();",
       "MLMethod result = methodFactory.create(" ++ quoted recipe.method ++ "," ++
         quoted recipe.architecture ++ ", 0, 0);",
       "((MLEncodable)result).decodeFromArray(WEIGHTS);"] ++ ["return result;"] := by
    simp only [helperBody, ofNode, network, h]
    exact inside_helper _ _
  -- two literals, so the line is taken apart twice
  have hcreate : classNames ("MLMethod result = methodFactory.create(" ++
        quoted recipe.method ++ "," ++ quoted recipe.architecture ++ ", 0, 0);") =
      classNames "MLMethod result = methodFactory.create(" ++
        (classNames "," ++ classNames ", 0, 0);") := by
    have hassoc : "MLMethod result = methodFactory.create(" ++ quoted recipe.method ++ "," ++
          quoted recipe.architecture ++ ", 0, 0);" =
        "MLMethod result = methodFactory.create(" ++ quoted recipe.method ++
          ("," ++ quoted recipe.architecture ++ ", 0, 0);") := by
      simp only [String.append_assoc]
    rw [hassoc, classNames_quoted (w := []) (by decide +kernel),
      classNames_quoted (w := []) (by decide +kernel)]
  rw [helperClasses, hbody]
  simp only [List.flatMap_cons, List.flatMap_nil, List.cons_append, List.nil_append, hcreate]
  decide +kernel

theorem helperClasses_loadTraining (name : String) (data : Path) :
    SameMembers (helperClasses loader mode (.loadTraining name data))
      (((Node.loadTraining name data).imports mode).map simpleName) := by
  have hbody : helperBody loader mode (.loadTraining name data) =
      [trainingResult mode data] ++ ["return result;"] := inside_helper _ _
  cases mode with
  | link =>
    rw [helperClasses, hbody, trainingResult_link, List.flatMap_append, List.flatMap_singleton,
      classNames_quoted (w := []) (by decide +kernel)]
    change SameMembers _ ([mlDataSet, encogUtility, javaFile].map simpleName)
    decide +kernel
  | embed =>
    rw [helperClasses, hbody, trainingResult_embed]
    change SameMembers _ ([mlDataSet, basicMLDataSet].map simpleName)
    decide +kernel

/-- **A function names the classes it imports and no other.** -/
theorem helperClasses_imports {node : Node} (h : mode = .embed → node.Embeddable loader) :
    SameMembers (helperClasses loader mode node) ((node.imports mode).map simpleName) := by
  cases node with
  | network name model =>
    cases mode with
    | link => exact helperClasses_linkedNetwork name model
    | embed =>
      obtain ⟨⟨kind, _⟩, recipe, hload, rfl⟩ := h rfl
      exact helperClasses_embeddedNetwork name hload
  | loadTraining name data => exact helperClasses_loadTraining name data
  | _ =>
    have hnone : SameMembers [] [] := by decide
    cases mode <;> exact hnone

/-- A row that does not start like an import. -/
def Apart (entry : Entry) : Prop := entry.text.toList.head? ≠ some 'i'

variable (loader mode)

/-- No layout starts like an import. -/
theorem apart_ofNode (depth : Nat) (node : Node) :
    ∀ entry ∈ (ofNode loader mode depth node).head?, Apart entry := by
  have hblank : Apart .blank := by simp [Apart, Entry.text]
  cases node with
  | network name model =>
    simp only [ofNode]
    unfold network
    split <;> simp [helper, hblank]
  | embedTraining data =>
    simp only [ofNode]
    unfold trainingData
    split <;> simp [table, braced, Apart, Entry.text]
  | call name result => cases result <;> simp [ofNode, hblank]
  | loadTraining name data => simp [ofNode, helper, hblank]
  | comment text => simp [ofNode, Apart, Entry.text]
  | const name typeName value => simp [ofNode, Apart, Entry.text]
  | array name values => simp [ofNode, braced, Apart, Entry.text]
  | classDecl name children => simp [ofNode, container, hblank]
  | mainFunction children => simp [ofNode, container, hblank]
  | staticFunction name children => simp [ofNode, container, hblank]

theorem apart_ofNodes (depth : Nat) (nodes : List Node) :
    ∀ entry ∈ (ofNodes loader mode depth nodes).head?, Apart entry := by
  induction nodes with
  | nil => simp [ofNodes]
  | cons node rest ih =>
    have hnode := apart_ofNode loader mode depth node
    rw [ofNodes, List.head?_append]
    cases hhead : (ofNode loader mode depth node).head? with
    | none => simpa using ih
    | some entry => simpa [hhead] using hnode

/-- Blanks in front of a text do not make it start like an import. -/
theorem head_row_ne {entry : Entry} (h : Apart entry) (width : Nat) :
    (entry.row width).toList.head? ≠ some 'i' := by
  cases entry with
  | blank => exact h
  | line depth text =>
    rw [Entry.row, String.toList_append, String.toList_ofList, List.head?_append]
    cases depth * width with
    | zero => exact h
    | succ n => simp [List.replicate_succ]

end Layout

end Java

/-! ## The imports of a source -/

variable {loader : Loader} {options : Options} {program : Program} {source : Source}

/-- **The imports of a source are those of its nodes, each where it first occurs.** -/
theorem Writes.imports_eq (h : Writes loader options program source) :
    source.imports =
      (program.located.flatMap fun place => place.2.imports options.mode).eraseDups := by
  obtain ⟨written, hwritten, himports, -⟩ := h.exists_generate
  rw [himports]
  cases hscript : (Script.ofProgram loader options.mode program).failure with
  | none =>
    rw [generate_of_none hscript] at hwritten
    cases hwritten
    change (Imports.addAll {} (Script.ofProgram loader options.mode program).imports).entries = _
    rw [Imports.entries_addAll, Script.ofProgram, Script.imports_ofNodes hscript,
      List.filter_eq_self.mpr (by simp)]
    rfl
  | some failure =>
    rw [generate_of_some hscript] at hwritten
    cases hwritten

theorem Writes.nodup_imports (h : Writes loader options program source) :
    source.imports.Nodup := by
  have hentries := Imports.entries_addAll {}
    (program.located.flatMap fun place => place.2.imports options.mode)
  rw [List.filter_eq_self.mpr (by simp), List.nil_append, ← h.imports_eq] at hentries
  rw [← hentries]
  exact Imports.nodup_addAll _ List.nodup_nil

/-- The text of a source is its imports and something that does not start with one. -/
theorem Writes.code_starts (h : Writes loader options program source) :
    ∃ rest, source.code.toList =
        source.imports.flatMap (fun entry => ("import " ++ entry ++ ";\n").toList) ++ rest ∧
      ¬ "import ".toList <+: rest := by
  rw [h.toList_code, importLines_eq, List.flatMap_append, List.flatMap_append, List.append_assoc,
    List.flatMap_map]
  refine ⟨_, congrArg₂ _ (by simp) rfl, ?_⟩
  by_cases hnone : source.imports = []
  · -- nothing stands in front of the body
    rw [if_pos hnone, h.body_eq]
    have hstart := Layout.apart_ofNodes loader options.mode 0 program.nodes
    cases hlayout : Layout.ofNodes loader options.mode 0 program.nodes with
    | nil => simp
    | cons entry rest =>
      rw [hlayout] at hstart
      have hrow := Layout.head_row_ne (hstart entry rfl) options.width
      rintro ⟨more, hmore⟩
      have hhead := congrArg List.head? hmore
      cases hletters : (entry.row options.width).toList with
      | nil => simp [hletters] at hhead
      | cons c letters =>
        have hc : 'i' = c := by simpa [hletters] using hhead
        rw [hletters, ← hc] at hrow
        exact hrow rfl
  · rw [if_neg hnone]
    simp

/-- **Imports fit what is written.** They are the imports of all nodes in document order, each once
and where it first occurs; the text starts with one line for each and no other import; and they
bring in exactly the classes that the functions written for the nodes name. -/
theorem imports_cover_helpers (h : Writes loader options program source) :
    source.imports =
        (program.located.flatMap fun place => place.2.imports options.mode).eraseDups ∧
      source.imports.Nodup ∧
      (∃ rest, source.code.toList =
          source.imports.flatMap (fun entry => ("import " ++ entry ++ ";\n").toList) ++ rest ∧
        ¬ "import ".toList <+: rest) ∧
      (∀ place ∈ program.located, ∃ depth,
        (Layout.helperBody loader options.mode place.2).map
          (fun text => Entry.row options.width (.line depth text)) <:+: source.body) ∧
      ∀ name, name ∈ source.imports.map simpleName ↔
        ∃ place ∈ program.located, ∃ line ∈ Layout.helperBody loader options.mode place.2,
          name ∈ words line ∧ isClassName name = true := by
  refine ⟨h.imports_eq, h.nodup_imports, h.code_starts, ?_, fun name => ?_⟩
  · rintro ⟨path, node⟩ hplace
    rw [h.body_eq]
    exact Layout.helperBody_within loader options.mode 0 options.width hplace
  · rw [h.imports_eq, List.mem_map]
    constructor
    · rintro ⟨entry, hentry, rfl⟩
      obtain ⟨place, hplace, hasked⟩ := List.mem_flatMap.mp (List.mem_eraseDups.mp hentry)
      have hsame := Layout.helperClasses_imports (h.embeddable hplace)
      have hnamed := hsame.2 _ (List.mem_map_of_mem hasked)
      obtain ⟨line, hline, hword⟩ := List.mem_flatMap.mp hnamed
      exact ⟨place, hplace, line, hline, List.mem_filter.mp hword⟩
    · rintro ⟨place, hplace, line, hline, hword⟩
      have hsame := Layout.helperClasses_imports (h.embeddable hplace)
      have hnamed : name ∈ Layout.helperClasses loader options.mode place.2 :=
        List.mem_flatMap.mpr ⟨line, hline, List.mem_filter.mpr hword⟩
      obtain ⟨entry, hasked, hname⟩ := List.mem_map.mp (hsame.1 name hnamed)
      exact ⟨entry, List.mem_eraseDups.mpr (List.mem_flatMap.mpr ⟨place, hplace, hasked⟩), hname⟩

/-- Two functions that share an import, in a class below another: the file class is imported once,
and a reference that reads like code names no class. -/
theorem imports_cover_helpers_shared :
    let program : Program :=
      ⟨[.classDecl "Foo"
        [.network "net" ⟨"net.eg"⟩, .classDecl "Bar" [.loadTraining "data" ⟨"new \"Scanner\""⟩]]]⟩
    let loader : Loader := ⟨fun _ => .ok default, fun _ => .ok default⟩
    ∃ source, Writes loader ⟨.link, 4⟩ program source ∧
      source.imports =
        ["org.encog.ml.MLMethod", "org.encog.persist.EncogDirectoryPersistence", "java.io.File",
         "org.encog.ml.data.MLDataSet", "org.encog.util.simple.EncogUtility"] ∧
      "Scanner".toList ∉ source.imports.map simpleName := by
  intro program loader
  obtain ⟨source, hrun⟩ : ∃ source,
      compile? loader ⟨.link, 4⟩ program = some ⟨.ok source, []⟩ := ⟨_, rfl⟩
  have hwrites : Writes loader ⟨.link, 4⟩ program source := ⟨_, Or.inr hrun, rfl⟩
  have himports := (imports_cover_helpers hwrites).1.trans
    (by decide +kernel : _ =
        ["org.encog.ml.MLMethod", "org.encog.persist.EncogDirectoryPersistence", "java.io.File",
         "org.encog.ml.data.MLDataSet", "org.encog.util.simple.EncogUtility"])
  refine ⟨source, hwrites, himports, ?_⟩
  rw [himports]
  decide +kernel

end NetScribe
