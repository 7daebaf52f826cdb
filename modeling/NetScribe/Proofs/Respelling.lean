import NetScribe.Proofs.Requests
import NetScribe.Proofs.Spellings

/-!
# Respelled references

A program that embeds its resources uses references only to look things up, so spelling them
another way changes nothing that can be seen but the words of a failure. `Respelled` relates lists
of nodes that differ in spelling alone, at any depth. What the check reads of a program is its
outline, which has no references (`check_congr`); what is written is a script, and respelled trees
have scripts that write the same and fail in the same way at the same place (`alike_ofNodes`),
because a store answers by components.
-/

namespace NetScribe

open Java

/-! ## Programs that differ in spelling -/

namespace Node

/-- Nodes that are the same but for the nodes below them and the spelling of their references. -/
inductive SpelledAlike : Node → Node → Prop
  | comment (text : String) : SpelledAlike (.comment text) (.comment text)
  | classDecl (name : String) (children children' : List Node) :
      SpelledAlike (.classDecl name children) (.classDecl name children')
  | mainFunction (children children' : List Node) :
      SpelledAlike (.mainFunction children) (.mainFunction children')
  | staticFunction (name : String) (children children' : List Node) :
      SpelledAlike (.staticFunction name children) (.staticFunction name children')
  | const (name typeName value : String) :
      SpelledAlike (.const name typeName value) (.const name typeName value)
  | call (name : String) (result : Option Binding) :
      SpelledAlike (.call name result) (.call name result)
  | array (name : String) (values : List Binary64) :
      SpelledAlike (.array name values) (.array name values)
  | network (name : String) {model model' : Path} : model.components = model'.components →
      SpelledAlike (.network name model) (.network name model')
  | embedTraining {data data' : Path} : data.components = data'.components →
      SpelledAlike (.embedTraining data) (.embedTraining data')
  | loadTraining (name : String) {data data' : Path} : data.components = data'.components →
      SpelledAlike (.loadTraining name data) (.loadTraining name data')

/-- Lists of nodes that are the same but for the spelling of references, at any depth. -/
inductive Respelled : List Node → List Node → Prop
  | nil : Respelled [] []
  | cons {node node' : Node} {rest rest' : List Node} :
      SpelledAlike node node' → Respelled node.children node'.children →
      Respelled rest rest' → Respelled (node :: rest) (node' :: rest')

/-- A node without the nodes below it and without its reference. -/
def outline : Node → Node
  | .classDecl name _ => .classDecl name []
  | .mainFunction _ => .mainFunction []
  | .staticFunction name _ => .staticFunction name []
  | .network name _ => .network name ⟨""⟩
  | .embedTraining _ => .embedTraining ⟨""⟩
  | .loadTraining name _ => .loadTraining name ⟨""⟩
  | node => node

namespace SpelledAlike

variable {node node' : Node}

theorem label_eq (h : SpelledAlike node node') : node.label = node'.label := by
  cases h <;> rfl

theorem outline_eq (h : SpelledAlike node node') : node.outline = node'.outline := by
  cases h <;> rfl

theorem opening_eq (h : SpelledAlike node node') : opening? node = opening? node' := by
  cases h <;> rfl

end SpelledAlike

/-- **Respelled trees have one listing of outlines.** -/
theorem outlines_of_respelled {nodes nodes' : List Node} (h : Respelled nodes nodes')
    (above : NodePath) :
    (locatedAll above nodes).map (fun place => (place.1, place.2.outline)) =
      (locatedAll above nodes').map fun place => (place.1, place.2.outline) := by
  induction h generalizing above with
  | nil => rfl
  | cons hnode _ _ below after =>
    rw [locatedAll_cons, locatedAll_cons, List.map_cons, List.map_cons, List.map_append,
      List.map_append, hnode.label_eq, hnode.outline_eq, below, after]

end Node

/-! ## The check reads outlines -/

namespace Program

variable {program program' : Program}

/-- The places of a program with the outlines of their nodes. -/
def outlines (program : Program) : List (NodePath × Node) :=
  program.located.map fun place => (place.1, place.2.outline)

/-- What can be told of a node by its outline is the same, place by place, for programs with the
same outlines. -/
theorem map_located_congr {β : Type} {f : NodePath × Node → β}
    (hf : ∀ path node, f (path, node.outline) = f (path, node))
    (h : program.outlines = program'.outlines) :
    program.located.map f = program'.located.map f := by
  have houtlines : ∀ p : Program, p.located.map f = p.outlines.map f := by
    intro p
    rw [outlines, List.map_map]
    exact List.map_congr_left fun place _ => (hf place.1 place.2).symm
  rw [houtlines, houtlines, h]

theorem filterMap_located_congr {β : Type} {f : NodePath × Node → Option β}
    (hf : ∀ path node, f (path, node.outline) = f (path, node))
    (h : program.outlines = program'.outlines) :
    program.located.filterMap f = program'.located.filterMap f := by
  simpa using congrArg (List.filterMap id) (map_located_congr hf h)

theorem any_located_congr {f : NodePath × Node → Bool}
    (hf : ∀ path node, f (path, node.outline) = f (path, node))
    (h : program.outlines = program'.outlines) :
    program.located.any f = program'.located.any f := by
  simpa using congrArg (List.any · id) (map_located_congr hf h)

/-- **The check reads the outlines of a program.** -/
theorem check_congr (h : program.outlines = program'.outlines) (mode : Mode) :
    program.mainPaths = program'.mainPaths ∧ program.warnings mode = program'.warnings mode := by
  have hmains : program.mainPaths = program'.mainPaths :=
    filterMap_located_congr (fun _ node => by cases node <;> rfl) h
  have hconsts : program.quotedConsts = program'.quotedConsts :=
    filterMap_located_congr (fun _ node => by cases node <;> rfl) h
  have harrays : program.arrayNames = program'.arrayNames :=
    filterMap_located_congr (fun _ node => by cases node <;> rfl) h
  have hnetworks : program.networkPaths = program'.networkPaths :=
    filterMap_located_congr (fun _ node => by cases node <;> rfl) h
  have hloaders : program.loaderPaths = program'.loaderPaths :=
    filterMap_located_congr (fun _ node => by cases node <;> rfl) h
  have hembeds : program.embedsTraining = program'.embedsTraining :=
    any_located_congr (fun _ node => by cases node <;> rfl) h
  refine ⟨hmains, ?_⟩
  rw [warnings, warnings, hconsts, harrays, hnetworks, hloaders, hembeds]

end Program

/-! ## Scripts that differ in words -/

/-- What of a failure does not depend on the spelling of references: its kind, and the node. -/
def Failure.site (failure : Failure) : Kind × Option NodePath :=
  (failure.diagnostic.kind, failure.diagnostic.path)

/-- A diagnostic is put at a node whatever it says. -/
theorem Diagnostic.kind_path_atNode (diagnostic : Diagnostic) (place : NodePath) :
    ((diagnostic.atNode place).kind, (diagnostic.atNode place).path) =
      (diagnostic.kind, if place.isTop then diagnostic.path else some place) := by
  rw [atNode]
  split <;> rfl

namespace Java.Script

/-- Scripts that write the same, and fail in the same way at the same place if they fail. -/
structure Alike (s t : Script) : Prop where
  steps : s.steps = t.steps
  imports : s.imports = t.imports
  failure : s.failure.map Failure.site = t.failure.map Failure.site

variable {s s' t t' : Script}

theorem Alike.refl (s : Script) : Alike s s := ⟨rfl, rfl, rfl⟩

/-- **Scripts in turn are alike if their parts are.** -/
theorem Alike.andThen (hs : Alike s s') (ht : Alike t t') :
    Alike (s.andThen t) (s'.andThen t') := by
  -- the first parts fail both or neither, so either both second parts count or none does
  have hfailure := hs.failure
  cases hnone : s.failure with
  | none =>
    rw [hnone] at hfailure
    have hnone' : s'.failure = none := Option.map_eq_none_iff.mp hfailure.symm
    rw [andThen_of_none hnone, andThen_of_none hnone']
    exact ⟨by rw [hs.steps, ht.steps], by rw [hs.imports, ht.imports], ht.failure⟩
  | some failure =>
    rw [hnone] at hfailure
    obtain ⟨failure', hsome', -⟩ := Option.map_eq_some_iff.mp hfailure.symm
    rw [andThen_of_some hnone, andThen_of_some hsome']
    exact hs

theorem Alike.container (opening : String) (h : Alike s s') :
    Alike (container opening s) (container opening s') :=
  (Alike.refl _).andThen (h.andThen (Alike.refl _))

/-- Requests are alike if what comes of them is. -/
theorem Alike.request (access access' : Access) {answer answer' : Except Failure Block}
    (h : answer.mapError Failure.site = answer'.mapError Failure.site) :
    Alike (request access answer) (request access' answer') := by
  cases answer with
  | error failure =>
    cases answer' with
    | error failure' => exact ⟨rfl, rfl, congrArg some (Except.error.inj h)⟩
    | ok block' => cases h
  | ok block =>
    cases answer' with
    | error failure' => cases h
    | ok block' =>
      cases Except.ok.inj h
      exact ⟨rfl, rfl, rfl⟩

end Java.Script

/-! ## A store answers by components -/

section Store

variable (store : Store) {path path' : Path}

theorem Table.get?_congr {α : Type} (table : Table α) (h : path.components = path'.components) :
    table.get? path = table.get? path' := by
  rw [Table.get?, Table.get?, h]

theorem networkBlock_respelled (h : path.components = path'.components) (place : NodePath)
    (name : String) :
    (networkBlock store.loader place name path).mapError Failure.site =
      (networkBlock store.loader place name path').mapError Failure.site := by
  simp only [networkBlock, Store.loader, Store.loadModel, store.models.get?_congr h]
  cases store.models.get? path' with
  | none =>
    simp only [Except.mapError, Failure.site, Failure.diagnostic, Diagnostic.kind_path_atNode]
  | some found => rfl

theorem dataBlock_respelled (h : path.components = path'.components) (place : NodePath) :
    (dataBlock store.loader place path).mapError Failure.site =
      (dataBlock store.loader place path').mapError Failure.site := by
  simp only [dataBlock, Store.loader, Store.loadDataset, store.datasets.get?_congr h]
  cases store.datasets.get? path' with
  | none =>
    simp only [Except.mapError, Failure.site, Failure.diagnostic, Diagnostic.kind_path_atNode]
  | some dataset => rfl

theorem alike_leaf {node node' : Node} (h : node.SpelledAlike node') (place : NodePath) :
    Script.Alike (.leaf store.loader .embed place node)
      (.leaf store.loader .embed place node') := by
  cases h with
  | network name hsame => exact .request _ _ (networkBlock_respelled store hsame place name)
  | embedTraining hsame => exact .request _ _ (dataBlock_respelled store hsame place)
  | _ => exact .refl _

/-- **Respelled trees have scripts that are alike.** -/
theorem alike_ofNodes {nodes nodes' : List Node} (h : Node.Respelled nodes nodes')
    (above : NodePath) :
    Script.Alike (.ofNodes store.loader .embed above nodes)
      (.ofNodes store.loader .embed above nodes') := by
  induction h generalizing above with
  | nil => exact .refl _
  | @cons node node' rest rest' hnode _ _ below after =>
    refine Script.Alike.andThen ?_ (after above)
    cases hopening : opening? node with
    | none =>
      rw [Script.ofNode_leaf hopening, Script.ofNode_leaf (hnode.opening_eq ▸ hopening),
        hnode.label_eq]
      exact alike_leaf store hnode _
    | some opening =>
      rw [Script.ofNode_container hopening,
        Script.ofNode_container (hnode.opening_eq ▸ hopening), hnode.label_eq]
      exact (below _).container opening

end Store

/-- Success can be told without the words of a failure. -/
theorem mapError_site_eq_ok_iff {result : Except Failure Source} {source : Source} :
    result.mapError Failure.site = .ok source ↔ result = .ok source := by
  cases result with
  | ok written => simp [Except.mapError]
  | error failure => simp [Except.mapError]

/-- Runs whose scripts are alike end alike. -/
theorem generate_of_alike {loader : Loader} {options : Options} {program program' : Program}
    (h : Script.Alike (.ofProgram loader options.mode program)
      (.ofProgram loader options.mode program')) :
    (generate loader options program).result.mapError Failure.site =
      (generate loader options program').result.mapError Failure.site := by
  have hfailure := h.failure
  cases hnone : (Script.ofProgram loader options.mode program).failure with
  | none =>
    rw [hnone] at hfailure
    rw [generate_of_none hnone, generate_of_none (Option.map_eq_none_iff.mp hfailure.symm)]
    simp only [h.steps, h.imports]
  | some failure =>
    rw [hnone] at hfailure
    obtain ⟨failure', hsome', hsite⟩ := Option.map_eq_some_iff.mp hfailure.symm
    rw [generate_of_some hnone, generate_of_some hsome']
    simp only [Except.mapError, hsite]

/-- **A respelled program is compiled alike**: to the same source, or with a failure of the same
kind at the same node. -/
theorem compile_of_respelled (store : Store) (width : Nat) {program program' : Program}
    (h : Node.Respelled program.nodes program'.nodes) :
    (compile store.loader ⟨.embed, width⟩ program).result.mapError Failure.site =
      (compile store.loader ⟨.embed, width⟩ program').result.mapError Failure.site := by
  obtain ⟨hmains, hwarnings⟩ := Program.check_congr (Node.outlines_of_respelled h .top) .embed
  rcases Nat.lt_or_ge 1 program.mainPaths.length with hseveral | hsingle
  · rw [compile_of_several hseveral, compile_of_several (hmains ▸ hseveral), hmains]
  · rw [compile_of_single hsingle, compile_of_single (hmains ▸ hsingle), hwarnings]
    have hswap : ∀ (f : Source → Source) (result : Except Failure Source),
        (result.map f).mapError Failure.site = (result.mapError Failure.site).map f := by
      intro f result
      cases result <;> rfl
    have hgenerate : (generate store.loader ⟨.embed, width⟩ program).result.mapError Failure.site =
        (generate store.loader ⟨.embed, width⟩ program').result.mapError Failure.site :=
      generate_of_alike (alike_ofNodes store h .top)
    rw [hswap, hswap, hgenerate]

/-- Which runs come to an end does not depend on spelling either. -/
theorem compile?_of_respelled (store : Store) (width : Nat) {program program' : Program}
    (h : Node.Respelled program.nodes program'.nodes) :
    (compile? store.loader ⟨.embed, width⟩ program).map
        (fun run => run.result.mapError Failure.site) =
      (compile? store.loader ⟨.embed, width⟩ program').map
        fun run => run.result.mapError Failure.site := by
  have hmains := (Program.check_congr (Node.outlines_of_respelled h .top) .embed).1
  have hpage : Options.writable ⟨.embed, width⟩ store.loader program =
      Options.writable ⟨.embed, width⟩ store.loader program' :=
    writable_congr (alike_ofNodes store h .top).steps
  rw [compile?_eq, compile?_eq, hmains, hpage]
  split
  · exact congrArg some (compile_of_respelled store width h)
  · rfl

/-- **Spelling does not matter where resources are embedded.** However the references of a program
are respelled, at any depth and any number of them, its run comes to an end or not as before; if it
succeeds the source is the same, imports, lines and warnings, and if it fails it is with a failure
of the same kind at the same node. More slashes, a `.` between slashes and a slash at the end are
such respellings. -/
theorem compile_respelled (store : Store) (width : Nat) (program program' : Program)
    (h : Node.Respelled program.nodes program'.nodes) :
    (compile? store.loader ⟨.embed, width⟩ program = none ↔
      compile? store.loader ⟨.embed, width⟩ program' = none) ∧
    (∀ run run', compile? store.loader ⟨.embed, width⟩ program = some run →
      compile? store.loader ⟨.embed, width⟩ program' = some run' →
      (∀ source, run.result = .ok source ↔ run'.result = .ok source) ∧
      ∀ failure failure', run.result = .error failure → run'.result = .error failure' →
        failure.diagnostic.kind = failure'.diagnostic.kind ∧
        failure.diagnostic.path = failure'.diagnostic.path) ∧
    (∀ front back : String,
      (⟨front ++ "//" ++ back⟩ : Path).components = (⟨front ++ "/" ++ back⟩ : Path).components ∧
      (⟨front ++ "/./" ++ back⟩ : Path).components = (⟨front ++ "/" ++ back⟩ : Path).components ∧
      (front ≠ "" → (⟨front ++ "/"⟩ : Path).components = (⟨front⟩ : Path).components)) := by
  have hruns := compile?_of_respelled store width h
  refine ⟨?_, fun run run' hrun hrun' => ?_, fun front back =>
    ⟨Path.components_slashes front back, Path.components_inner_here front back,
      Path.components_last_slash⟩⟩
  · rw [← Option.map_eq_none_iff, hruns, Option.map_eq_none_iff]
  · rw [hrun, hrun', Option.map_some, Option.map_some] at hruns
    have hsame := Option.some.inj hruns
    refine ⟨fun source => ?_, fun failure failure' herror herror' => ?_⟩
    · rw [← mapError_site_eq_ok_iff, hsame, mapError_site_eq_ok_iff]
    · rw [herror, herror'] at hsame
      exact Prod.mk.inj (Except.error.inj hsame)

/-- Three references respelled at two depths, of which two are looked up. Of the store without its
model the first is missed, under either spelling, at the same node. -/
theorem compile_respelled_nested :
    let models : Table Model :=
      Table.empty.insert ⟨"nets/a.eg"⟩ ⟨"BasicNetwork", some ⟨"feedforward", "?:B->?"⟩⟩
    let datasets : Table Dataset := Table.empty.insert ⟨"./xor.egb"⟩ default
    let program : Program :=
      ⟨[.classDecl "Foo"
        [.network "net" ⟨"nets//a.eg"⟩,
         .staticFunction "run" [.embedTraining ⟨"./xor.egb"⟩, .loadTraining "data" ⟨"other/"⟩]]]⟩
    let program' : Program :=
      ⟨[.classDecl "Foo"
        [.network "net" ⟨"nets/./a.eg/"⟩,
         .staticFunction "run" [.embedTraining ⟨".//xor.egb"⟩, .loadTraining "data" ⟨"other"⟩]]]⟩
    Node.Respelled program.nodes program'.nodes ∧
      (∃ run run' source,
        compile? (Store.mk models datasets).loader ⟨.embed, 4⟩ program = some run ∧
        compile? (Store.mk models datasets).loader ⟨.embed, 4⟩ program' = some run' ∧
        run.result = .ok source ∧ run'.result = .ok source) ∧
      ∃ run run' failure failure',
        compile? (Store.mk .empty datasets).loader ⟨.embed, 4⟩ program = some run ∧
        compile? (Store.mk .empty datasets).loader ⟨.embed, 4⟩ program' = some run' ∧
        run.result = .error failure ∧ run'.result = .error failure' ∧
        failure.diagnostic.kind = failure'.diagnostic.kind ∧
        failure.diagnostic.path = failure'.diagnostic.path := by
  intro models datasets program program'
  have h : Node.Respelled program.nodes program'.nodes :=
    .cons (.classDecl _ _ _)
      (.cons (.network "net" rfl) .nil
        (.cons (.staticFunction _ _ _)
          (.cons (.embedTraining rfl) .nil (.cons (.loadTraining "data" rfl) .nil .nil)) .nil)) .nil
  have hfound := (compile_respelled ⟨models, datasets⟩ 4 program program' h).2.1 _ _ rfl rfl
  have hmissed := (compile_respelled ⟨.empty, datasets⟩ 4 program program' h).2.1 _ _ rfl rfl
  exact ⟨h, ⟨_, _, _, rfl, rfl, rfl, (hfound.1 _).mp rfl⟩,
    _, _, _, _, rfl, rfl, rfl, rfl, hmissed.2 _ _ rfl rfl⟩

end NetScribe
