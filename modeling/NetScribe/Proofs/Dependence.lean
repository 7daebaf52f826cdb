import NetScribe.Proofs.Requests

/-!
# What a run depends on

A run reads three things: where the main functions are, which warnings the listing deserves, and the
script of the program (`compile?_congr`). The script in turn is made of the scripts of the leaves
(`Script.ofNodes_congr`), so two loaders that no leaf can tell apart cannot be told apart by a run.
Linked leaves cannot tell any loaders apart; an embedded network sees the recipe of its model, and
its kind only if there is no recipe.

Training data to be embedded leaves no trace in a linked program, at whatever depth it stands: the
listing without it is the listing with its places left out (`locatedAll_withoutTraining`).
-/

namespace NetScribe

open Java

/-! ## Runs that agree -/

/-- **The script of a tree is made of the scripts of its leaves.** -/
theorem Java.Script.ofNodes_congr {loader loader' : Loader} {mode : Mode} {above : NodePath}
    {nodes : List Node}
    (h : ∀ place ∈ Node.locatedAll above nodes,
      leaf loader mode place.1 place.2 = leaf loader' mode place.1 place.2) :
    ofNodes loader mode above nodes = ofNodes loader' mode above nodes := by
  induction nodes using Node.forestInduction generalizing above with
  | nil => rfl
  | cons node rest below after =>
    rw [Node.locatedAll_cons, List.forall_mem_cons, List.forall_mem_append] at h
    obtain ⟨hnode, hbelow, hafter⟩ := h
    rw [ofNodes, ofNodes, after hafter]
    cases hopening : opening? node with
    | none => rw [ofNode_leaf hopening, ofNode_leaf hopening, hnode]
    | some opening => rw [ofNode_container hopening, ofNode_container hopening, below hbelow]

section Congr

variable {loader loader' : Loader} {options : Options} {program program' : Program}

theorem generate_congr
    (h : Script.ofProgram loader options.mode program =
      Script.ofProgram loader' options.mode program') :
    generate loader options program = generate loader' options program' := by
  cases hfailure : (Script.ofProgram loader options.mode program).failure with
  | none => rw [generate_of_none hfailure, generate_of_none (h ▸ hfailure), h]
  | some failure => rw [generate_of_some hfailure, generate_of_some (h ▸ hfailure), h]

/-- **A run reads the main functions, the warnings and the script**, and nothing else. -/
theorem compile?_congr (hmains : program.mainPaths = program'.mainPaths)
    (hwarnings : program.warnings options.mode = program'.warnings options.mode)
    (hscript : Script.ofProgram loader options.mode program =
      Script.ofProgram loader' options.mode program') :
    compile? loader options program = compile? loader' options program' := by
  have hcompile : compile loader options program = compile loader' options program' := by
    rcases Nat.lt_or_ge 1 program.mainPaths.length with hseveral | hsingle
    · rw [compile_of_several hseveral, compile_of_several (hmains ▸ hseveral), hmains]
    · rw [compile_of_single hsingle, compile_of_single (hmains ▸ hsingle), hwarnings,
        generate_congr hscript]
  rw [compile?_eq, compile?_eq, hmains, hcompile, writable_congr (congrArg Script.steps hscript)]

end Congr

/-! ## Loaders -/

/-- Answers that a network cannot tell apart: the same fault, or models with the same recipe, and of
the same kind if they have none. -/
def SameAnswer : Except LoadFault Model → Except LoadFault Model → Prop
  | .error fault, .error fault' => fault = fault'
  | .ok model, .ok model' =>
    model.recipe = model'.recipe ∧ (model.recipe = none → model.kind = model'.kind)
  | _, _ => False

/-- Two loaders give a program the same answers where it asks. -/
structure Loader.AgreeOn (loader loader' : Loader) (program : Program) : Prop where
  datasets : ∀ labels data, Node.Leads program.nodes labels (.embedTraining data) →
    loader.dataset data = loader'.dataset data
  models : ∀ labels name model, Node.Leads program.nodes labels (.network name model) →
    SameAnswer (loader.model model) (loader'.model model)

theorem networkBlock_congr {loader loader' : Loader} {model : Path}
    (h : SameAnswer (loader.model model) (loader'.model model)) (place : NodePath) (name : String) :
    networkBlock loader place name model = networkBlock loader' place name model := by
  rw [networkBlock, networkBlock]
  cases hload : loader.model model with
  | error fault =>
    cases hload' : loader'.model model with
    | error fault' =>
      rw [hload, hload'] at h
      cases (h : fault = fault')
      rfl
    | ok found' =>
      rw [hload, hload'] at h
      exact h.elim
  | ok found =>
    cases hload' : loader'.model model with
    | error fault' =>
      rw [hload, hload'] at h
      exact h.elim
    | ok found' =>
      rw [hload, hload'] at h
      obtain ⟨hrecipe, hkind⟩ : _ ∧ _ := h
      cases hfound : found.recipe with
      | none => simp only [← hrecipe, hfound, hkind hfound]
      | some recipe => simp only [← hrecipe, hfound]

/-- A linked leaf asks for nothing. -/
theorem leaf_link (loader loader' : Loader) (place : NodePath) (node : Node) :
    Script.leaf loader .link place node = Script.leaf loader' .link place node := by
  cases node <;> rfl

/-- An embedded leaf sees only the answers to its own request. -/
theorem leaf_embed_congr {loader loader' : Loader} {program : Program} {place : NodePath × Node}
    (h : loader.AgreeOn loader' program) (hplace : place ∈ program.located) :
    Script.leaf loader .embed place.1 place.2 = Script.leaf loader' .embed place.1 place.2 := by
  obtain ⟨path, node⟩ := place
  have hlead := Program.mem_located.mp hplace
  cases node with
  | network name model =>
    simp only [Script.leaf, networkBlock_congr (h.models _ _ _ hlead)]
  | embedTraining data => simp only [Script.leaf, dataBlock, h.datasets _ _ hlead]
  | _ => rfl

/-! ## Training data in a linked program -/

namespace Node

mutual

/-- A node without the training data to be embedded below it; of such data itself nothing is
left. -/
def withoutTraining? (node : Node) : Option Node :=
  match node with
  | .classDecl name children => some (.classDecl name (withoutTrainingAll children))
  | .mainFunction children => some (.mainFunction (withoutTrainingAll children))
  | .staticFunction name children => some (.staticFunction name (withoutTrainingAll children))
  | .embedTraining _ => none
  | leaf => some leaf

@[inherit_doc withoutTraining?]
def withoutTrainingAll : List Node → List Node
  | [] => []
  | node :: rest => (withoutTraining? node).toList ++ withoutTrainingAll rest

end

/-- A node is taken out, or stays what it is around what is left below it. -/
theorem withoutTraining?_cases (node : Node) :
    (∃ data, node = .embedTraining data ∧ node.withoutTraining? = none) ∨
    ∃ kept, node.withoutTraining? = some kept ∧ kept.label = node.label ∧
      kept.children = withoutTrainingAll node.children ∧ opening? kept = opening? node ∧
      (opening? node = none → kept = node) := by
  cases node with
  | embedTraining data => exact Or.inl ⟨data, rfl, rfl⟩
  | classDecl name children => exact Or.inr ⟨_, rfl, rfl, rfl, rfl, fun h => by cases h⟩
  | mainFunction children => exact Or.inr ⟨_, rfl, rfl, rfl, rfl, fun h => by cases h⟩
  | staticFunction name children => exact Or.inr ⟨_, rfl, rfl, rfl, rfl, fun h => by cases h⟩
  | _ => exact Or.inr ⟨_, rfl, rfl, rfl, rfl, fun _ => rfl⟩

/-- **The listing without training data** is the listing with its places left out. -/
theorem locatedAll_withoutTraining (above : NodePath) (nodes : List Node) :
    locatedAll above (withoutTrainingAll nodes) =
      (locatedAll above nodes).filterMap fun place =>
        place.2.withoutTraining?.map (Prod.mk place.1) := by
  induction nodes using forestInduction generalizing above with
  | nil => rfl
  | cons node rest below after =>
    rw [withoutTrainingAll, locatedAll_cons, List.filterMap_cons, List.filterMap_append, ← below,
      ← after]
    rcases withoutTraining?_cases node with ⟨data, rfl, hnone⟩ | ⟨kept, hkept, hlabel, hchildren, -⟩
    · rw [hnone]
      rfl
    · rw [hkept, Option.toList_some, List.singleton_append, locatedAll_cons, hlabel, hchildren]
      rfl

end Node

/-- A program without the training data to be embedded, at any depth. -/
def Program.withoutTraining (program : Program) : Program :=
  ⟨Node.withoutTrainingAll program.nodes⟩

namespace Program

variable (program : Program)

theorem located_withoutTraining :
    program.withoutTraining.located =
      program.located.filterMap fun place => place.2.withoutTraining?.map (Prod.mk place.1) :=
  Node.locatedAll_withoutTraining .top program.nodes

/-- No training data is left. -/
theorem not_embedTraining_withoutTraining (labels : List String) (data : Path) :
    ¬ Node.Leads program.withoutTraining.nodes labels (.embedTraining data) := by
  intro h
  have hmem : ((⟨labels⟩, .embedTraining data) : NodePath × Node) ∈
      program.withoutTraining.located := Program.mem_located.mpr h
  rw [located_withoutTraining] at hmem
  obtain ⟨⟨path, node⟩, -, hkept⟩ := List.mem_filterMap.mp hmem
  cases node <;> simp [Node.withoutTraining?] at hkept

/-- What can be listed without looking at training data, or below nodes, is still listed. -/
theorem filterMap_withoutTraining {β : Type} {f : NodePath × Node → Option β}
    (hf : ∀ path node, (node.withoutTraining?.map (Prod.mk path)).bind f = f (path, node)) :
    program.withoutTraining.located.filterMap f = program.located.filterMap f := by
  rw [located_withoutTraining, List.filterMap_filterMap]
  congr 1
  funext place
  exact hf place.1 place.2

theorem mainPaths_withoutTraining : program.withoutTraining.mainPaths = program.mainPaths :=
  program.filterMap_withoutTraining fun _ node => by cases node <;> rfl

theorem warnings_withoutTraining :
    program.withoutTraining.warnings .link = program.warnings .link := by
  have hconsts : program.withoutTraining.quotedConsts = program.quotedConsts :=
    program.filterMap_withoutTraining fun _ node => by cases node <;> rfl
  simp [warnings, hconsts]

end Program

/-- **A linked tree has the same script without its training data.** -/
theorem Java.Script.ofNodes_withoutTraining (loader : Loader) (above : NodePath)
    (nodes : List Node) :
    ofNodes loader .link above (Node.withoutTrainingAll nodes) =
      ofNodes loader .link above nodes := by
  induction nodes using Node.forestInduction generalizing above with
  | nil => rfl
  | cons node rest below after =>
    rw [Node.withoutTrainingAll]
    rcases Node.withoutTraining?_cases node with
      ⟨data, rfl, hnone⟩ | ⟨kept, hkept, hlabel, hchildren, hopening, hleaf⟩
    · rw [hnone]
      exact after above
    · rw [hkept, Option.toList_some, List.singleton_append, ofNodes, ofNodes, after]
      cases h : opening? node with
      | none => rw [hleaf h]
      | some opening =>
        rw [ofNode_container h, ofNode_container (hopening.trans h), hlabel, hchildren, below]

/-- **What has no influence on a run.** A linked program is the same whatever the loader, and
whether or not it holds training data to be embedded, at any depth. An embedded program is the same
for any two loaders that give it the same datasets or faults for its training data, and for its
networks the same faults or models with the same recipe; the kind of a model counts only if it has
no recipe. -/
theorem compile_reads_only (program : Program) (width : Nat) (loader loader' : Loader) :
    compile? loader ⟨.link, width⟩ program = compile? loader' ⟨.link, width⟩ program ∧
    (∀ labels data, ¬ Node.Leads program.withoutTraining.nodes labels (.embedTraining data)) ∧
    compile? loader ⟨.link, width⟩ program.withoutTraining =
      compile? loader ⟨.link, width⟩ program ∧
    (loader.AgreeOn loader' program →
      compile? loader ⟨.embed, width⟩ program = compile? loader' ⟨.embed, width⟩ program) := by
  refine ⟨?_, program.not_embedTraining_withoutTraining, ?_, fun h => ?_⟩
  · exact compile?_congr rfl rfl
      (Script.ofNodes_congr fun place _ => leaf_link loader loader' place.1 place.2)
  · exact compile?_congr program.mainPaths_withoutTraining program.warnings_withoutTraining
      (Script.ofNodes_withoutTraining loader .top program.nodes)
  · exact compile?_congr rfl rfl
      (Script.ofNodes_congr fun place hplace => leaf_embed_congr h hplace)

/-- Loaders that agree on no kind, and only on the two references the program embeds. The one it
names for a function that gives training data is not among them. -/
theorem compile_reads_only_recipes :
    let recipe : Recipe := ⟨"feedforward", "?:B->?"⟩
    let loader : Loader :=
      ⟨fun _ => .ok ⟨"BasicNetwork", some recipe⟩, fun _ => .ok default⟩
    let loader' : Loader :=
      ⟨fun path => if path.text = "net.eg" then .ok ⟨"RBFNetwork", some recipe⟩
        else .error (.unknownModel path),
       fun path => if path.text = "xor.egb" then .ok default else .error (.unknownDataset path)⟩
    let program : Program :=
      ⟨[.classDecl "Foo"
        [.network "net" ⟨"net.eg"⟩, .staticFunction "run" [.embedTraining ⟨"xor.egb"⟩],
         .loadTraining "data" ⟨"other.egb"⟩]]⟩
    loader.AgreeOn loader' program ∧
      (∃ run source, compile? loader ⟨.embed, 4⟩ program = some run ∧ run.result = .ok source) ∧
      compile? loader ⟨.embed, 4⟩ program = compile? loader' ⟨.embed, 4⟩ program := by
  intro recipe loader loader' program
  have hagree : loader.AgreeOn loader' program := by
    constructor
    · intro labels data hlead
      have hdata : data = ⟨"xor.egb"⟩ := by
        simp [program, Node.Leads.cons_iff, Node.children, Node.Leads.not_nil] at hlead
        grind
      rw [hdata]
      rfl
    · intro labels name model hlead
      have hmodel : model = ⟨"net.eg"⟩ := by
        simp [program, Node.Leads.cons_iff, Node.children, Node.Leads.not_nil] at hlead
        grind
      rw [hmodel]
      exact ⟨rfl, fun h => by cases h⟩
  have hpage : Options.writable ⟨.embed, 4⟩ loader program :=
    writable_of_places 3 (by decide) (by decide)
  exact ⟨hagree, ⟨_, _, compile?_of_writable hpage, rfl⟩,
    (compile_reads_only program 4 loader loader').2.2.2 hagree⟩

end NetScribe
