import Mathlib.Data.List.TakeWhile
import NetScribe.Proofs.Depths
import NetScribe.Proofs.Survey

/-!
# What a run asks for, and where it fails

A run that embeds asks for the model of every network and for all training data, in document order,
until it is refused something. Two laws of scripts say so. `failure_ofNodes`: the failure of a tree
is the failure of the first leaf of its listing that has one, with the place it is listed under.
`asks_ofNodes`: what a tree asks for are the requests of its nodes, up to the first that is refused
and with it; this is an invariant (`Asks`) that sequences of scripts keep.

A run that links asks for nothing and cannot fail, and a program with several main functions is
refused before it asks for anything.
-/

namespace NetScribe

/-! ## The first failure -/

namespace Java

variable {loader : Loader} {mode : Mode}

/-- A container does nothing of its own that could fail. -/
theorem leaf_of_container {place : NodePath} {node : Node} {opening : String}
    (h : opening? node = some opening) : Script.leaf loader mode place node = {} := by
  cases node <;> cases h <;> rfl

/-- **The first leaf that fails is what a tree fails at**, and its place is the one it is listed
under. -/
theorem failure_ofNodes (above : NodePath) (nodes : List Node) :
    (Script.ofNodes loader mode above nodes).failure =
      (Node.locatedAll above nodes).findSome? fun place =>
        (Script.leaf loader mode place.1 place.2).failure := by
  induction nodes using Node.forestInduction generalizing above with
  | nil => rfl
  | cons node rest below after =>
    rw [Script.ofNodes, Script.failure_andThen, after, Node.locatedAll_cons, List.findSome?_cons,
      List.findSome?_append]
    cases h : opening? node with
    | none =>
      rw [Script.ofNode_leaf h, children_of_leaf h]
      cases (Script.leaf loader mode (above.push node.label) node).failure with
      | none => rfl
      | some failure => rfl
    | some opening =>
      rw [Script.ofNode_container h, Script.failure_container, below, leaf_of_container h]

end Java

open Java

/-- A node can be written when resources are embedded: what it names can be had, and a model tells
how it is rebuilt. -/
def Node.Embeddable (loader : Loader) : Node → Prop
  | .network _ model =>
    ∃ found recipe, loader.model model = .ok found ∧ found.recipe = some recipe
  | .embedTraining data => ∃ dataset, loader.dataset data = .ok dataset
  | _ => True

/-- What is shown of a node that cannot be embedded: the loader's own fault if there is one, and
otherwise the kind of the model that cannot be rebuilt. -/
def Node.Blamed (loader : Loader) (d : Diagnostic) : Node → Prop
  | .network _ model =>
    match loader.model model with
    | .error cause => d.kind = .resourceLoad ∧ d.cause = some cause
    | .ok found =>
      d.kind = .unsupportedModel ∧ d.cause = none ∧
        d.message = "code generation not yet supported for: " ++ found.kind
  | .embedTraining data =>
    match loader.dataset data with
    | .error cause => d.kind = .resourceLoad ∧ d.cause = some cause
    | .ok _ => False
  | _ => False

variable {loader : Loader} {place : NodePath} {node : Node} {failure : Failure}

/-- A leaf fails exactly if it cannot be embedded. -/
theorem failure_leaf_eq_none_iff :
    (Script.leaf loader .embed place node).failure = none ↔ node.Embeddable loader := by
  cases node with
  | network name model =>
    simp only [Script.leaf, networkBlock, Node.Embeddable]
    cases hload : loader.model model with
    | error cause => simp [Script.request]
    | ok found =>
      cases hrecipe : found.recipe with
      | none => simp [Script.request, hrecipe]
      | some recipe => simp [Script.request, Script.write, hrecipe]
  | embedTraining data =>
    simp only [Script.leaf, dataBlock, Node.Embeddable]
    cases hload : loader.dataset data with
    | error cause => simp [Script.request]
    | ok dataset => simp [Script.request, Script.write]
  | _ => simp [Script.leaf, Script.write, Node.Embeddable]

/-- A failure is shown at the place of its leaf and says what is wrong with it. -/
theorem blamed_of_failure_leaf (hplace : place.isTop = false)
    (h : (Script.leaf loader .embed place node).failure = some failure) :
    failure.diagnostic.path = some place ∧ node.Blamed loader failure.diagnostic := by
  cases node with
  | network name model =>
    simp only [Script.leaf, networkBlock] at h
    cases hload : loader.model model with
    | error cause =>
      simp only [hload, Script.request, Option.some.injEq] at h
      subst h
      simp [Failure.diagnostic, Diagnostic.atNode, hplace, Node.Blamed, hload]
    | ok found =>
      cases hrecipe : found.recipe with
      | none =>
        simp only [hload, hrecipe, Script.request, Option.some.injEq] at h
        subst h
        simp [Failure.diagnostic, Diagnostic.atNode, hplace, Node.Blamed, hload]
      | some recipe => simp [hload, hrecipe, Script.request, Script.write] at h
  | embedTraining data =>
    simp only [Script.leaf, dataBlock] at h
    cases hload : loader.dataset data with
    | error cause =>
      simp only [hload, Script.request, Option.some.injEq] at h
      subst h
      simp [Failure.diagnostic, Diagnostic.atNode, hplace, Node.Blamed, hload]
    | ok dataset => simp [hload, Script.request, Script.write] at h
  | _ => simp [Script.leaf, Script.write] at h

/-- Nothing fails where resources are linked. -/
theorem failure_leaf_link : (Script.leaf loader .link place node).failure = none := by
  cases node <;> rfl

variable {options : Options} {program : Program}

theorem failure_ofProgram_link : (Script.ofProgram loader .link program).failure = none := by
  rw [Script.ofProgram, failure_ofNodes, List.findSome?_eq_none_iff]
  intro place _
  exact failure_leaf_link

/-- The script of a program embeds everything or fails. -/
theorem failure_ofProgram_eq_none_iff :
    (Script.ofProgram loader .embed program).failure = none ↔
      ∀ labels node, Node.Leads program.nodes labels node → node.Embeddable loader := by
  rw [Script.ofProgram, failure_ofNodes, List.findSome?_eq_none_iff]
  constructor
  · intro h labels node hlead
    exact failure_leaf_eq_none_iff.mp (h (⟨labels⟩, node) (Program.mem_located.mpr hlead))
  · rintro h ⟨path, node⟩ hmem
    exact failure_leaf_eq_none_iff.mpr (h _ _ (Program.mem_located.mp hmem))

/-- **A script that fails does so at the first node that cannot be embedded.** -/
theorem first_of_failure (h : (Script.ofProgram loader .embed program).failure = some failure) :
    ∃ before path node after,
      program.located = before ++ (path, node) :: after ∧
      (∀ place ∈ before, place.2.Embeddable loader) ∧ ¬ node.Embeddable loader ∧
      Node.Leads program.nodes path.labels node ∧
      failure.diagnostic.path = some path ∧ node.Blamed loader failure.diagnostic := by
  rw [Script.ofProgram, failure_ofNodes] at h
  obtain ⟨before, ⟨path, node⟩, after, hlist, hfail, hbefore⟩ := List.findSome?_eq_some_iff.mp h
  have hlead : Node.Leads program.nodes path.labels node := by
    rw [← Program.mem_located, Program.located, hlist]
    exact List.mem_append_right _ List.mem_cons_self
  have hplace : path.isTop = false := by
    simpa [NodePath.isTop] using hlead.ne_nil
  refine ⟨before, path, node, after, hlist, ?_, ?_, hlead, blamed_of_failure_leaf hplace hfail⟩
  · intro place hmem
    exact failure_leaf_eq_none_iff.mp (hbefore place hmem)
  · intro hfine
    have hnone : (Script.leaf loader .embed path node).failure = none :=
      failure_leaf_eq_none_iff.mpr hfine
    rw [hfail] at hnone
    cases hnone

/-- A program that passes the check is written exactly if its script does not fail. -/
theorem compile_eq_ok_iff (hmains : program.mainPaths.length ≤ 1) :
    (∃ source, (compile loader options program).result = .ok source) ↔
      (Script.ofProgram loader options.mode program).failure = none := by
  rw [compile_of_single hmains]
  cases h : (Script.ofProgram loader options.mode program).failure with
  | none =>
    rw [generate_of_none h]
    exact iff_of_true ⟨_, rfl⟩ rfl
  | some failure =>
    rw [generate_of_some h]
    simp [Except.map]

/-- And otherwise it fails as its script does. -/
theorem compile_eq_error_iff (hmains : program.mainPaths.length ≤ 1) :
    (compile loader options program).result = .error failure ↔
      (Script.ofProgram loader options.mode program).failure = some failure := by
  rw [compile_of_single hmains]
  cases h : (Script.ofProgram loader options.mode program).failure with
  | none =>
    rw [generate_of_none h]
    simp [Except.map]
  | some failure' =>
    rw [generate_of_some h]
    simp [Except.map]

/-- **A program fails at its first node that cannot be embedded**, and only there. The failure is
shown at the place labels lead to, which is the place a visitor is given for that node, and says
what is wrong with it. Where resources are linked no program fails. The program has at most one main
function; a line that cannot be indented stops the run without a failure. -/
theorem compile_fails_at_first (loader : Loader) (options : Options) (program : Program)
    (hmains : program.mainPaths.length ≤ 1) :
    Visitor.recorder.visit program [] = program.located ∧
    ((compile? loader options program).isSome ↔ options.writable loader program) ∧
    ∀ run, compile? loader options program = some run →
      (options.mode = .link → ∃ source, run.result = .ok source) ∧
      (options.mode = .embed →
        ((∃ source, run.result = .ok source) ↔
          ∀ labels node, Node.Leads program.nodes labels node → node.Embeddable loader) ∧
        ∀ failure, run.result = .error failure →
          ∃ before path node after,
            program.located = before ++ (path, node) :: after ∧
            (∀ place ∈ before, place.2.Embeddable loader) ∧ ¬ node.Embeddable loader ∧
            Node.Leads program.nodes path.labels node ∧
            failure.diagnostic.path = some path ∧ node.Blamed loader failure.diagnostic) := by
  refine ⟨Visitor.visit_recorder program, ?_, fun run hrun => ?_⟩
  · rw [isSome_compile?]
    exact or_iff_right (by omega)
  · obtain rfl := compile?_eq_some hrun
    refine ⟨fun hlink => ?_, fun hembed => ⟨?_, fun failure herror => ?_⟩⟩
    · rw [compile_eq_ok_iff hmains, hlink]
      exact failure_ofProgram_link
    · rw [compile_eq_ok_iff hmains, hembed]
      exact failure_ofProgram_eq_none_iff
    · rw [compile_eq_error_iff hmains, hembed] at herror
      exact first_of_failure herror

/-- A network that cannot be rebuilt, below a function and behind one that can; the training data
that is missing as well is not reached. -/
theorem compile_fails_at_first_nested :
    let loader : Loader :=
      ⟨fun path =>
        if path.text = "svm.eg" then .ok ⟨"SVM", none⟩
        else .ok ⟨"BasicNetwork", some ⟨"feedforward", "?:B->?"⟩⟩,
       fun path => .error (.unknownDataset path)⟩
    let program : Program :=
      ⟨[.classDecl "Foo"
        [.network "first" ⟨"net.eg"⟩,
         .staticFunction "run" [.network "second" ⟨"svm.eg"⟩],
         .embedTraining ⟨"xor.egb"⟩]]⟩
    program.mainPaths.length ≤ 1 ∧
      ∃ run failure, compile? loader ⟨.embed, 4⟩ program = some run ∧
        run.result = .error failure ∧ failure = .noRecipe ⟨["Foo", "run", "second"]⟩ "SVM" ∧
        ∃ before path node after,
          program.located = before ++ (path, node) :: after ∧
          (∀ place ∈ before, place.2.Embeddable loader) ∧ ¬ node.Embeddable loader ∧
          Node.Leads program.nodes path.labels node ∧
          failure.diagnostic.path = some path ∧ node.Blamed loader failure.diagnostic := by
  intro loader program
  have hmains : program.mainPaths.length ≤ 1 := by decide
  have hrun : compile? loader ⟨.embed, 4⟩ program = some (compile loader ⟨.embed, 4⟩ program) := rfl
  have hfirst := (compile_fails_at_first loader ⟨.embed, 4⟩ program hmains).2.2 _ hrun
  exact ⟨hmains, _, _, hrun, rfl, rfl, (hfirst.2 rfl).2 _ rfl⟩

/-! ## The requests -/

/-- What a node asks for; only embedding asks for anything. -/
def Node.request? : Mode → Node → Option Access
  | .embed, .network _ model => some (.model model)
  | .embed, .embedTraining data => some (.dataset data)
  | _, _ => none

/-- What the nodes at these places ask for. -/
def requestsAt (mode : Mode) (places : List (NodePath × Node)) : List Access :=
  places.filterMap fun place => place.2.request? mode

theorem requestsAt_cons (mode : Mode) (path : NodePath) (node : Node)
    (rest : List (NodePath × Node)) :
    requestsAt mode ((path, node) :: rest) =
      (node.request? mode).toList ++ requestsAt mode rest := by
  rw [requestsAt, List.filterMap_cons]
  cases node.request? mode with
  | none => rfl
  | some access => rfl

theorem requestsAt_append (mode : Mode) (first second : List (NodePath × Node)) :
    requestsAt mode (first ++ second) = requestsAt mode first ++ requestsAt mode second :=
  List.filterMap_append

/-- What the nodes of a program ask for, in document order. -/
def Program.requests (program : Program) (mode : Mode) : List Access :=
  requestsAt mode program.located

namespace Java

/-- A request is met by something that can be embedded. -/
def Access.granted (loader : Loader) : Access → Bool
  | .model path =>
    match loader.model path with
    | .ok found => found.recipe.isSome
    | .error _ => false
  | .dataset path => (loader.dataset path).isOk

/-- Requests up to the first that is refused, and with it. -/
def upToRefusal (loader : Loader) (requests : List Access) : List Access :=
  requests.takeWhile (Access.granted loader) ++
    (requests.dropWhile (Access.granted loader)).take 1

variable {loader : Loader} {first second : List Access}

theorem upToRefusal_append_of_granted (h : ∀ access ∈ first, access.granted loader = true) :
    upToRefusal loader (first ++ second) = first ++ upToRefusal loader second := by
  rw [upToRefusal, List.takeWhile_append_of_pos h, List.dropWhile_append_of_pos h, upToRefusal,
    List.append_assoc]

theorem upToRefusal_of_granted (h : ∀ access ∈ first, access.granted loader = true) :
    upToRefusal loader first = first := by
  rw [upToRefusal, List.takeWhile_eq_self_iff.mpr h, List.dropWhile_eq_nil_iff.mpr h]
  exact List.append_nil first

/-- Nothing is asked for behind a refusal. -/
theorem upToRefusal_append_of_refused (h : ¬ ∀ access ∈ first, access.granted loader = true) :
    upToRefusal loader (first ++ second) = upToRefusal loader first := by
  induction first with
  | nil => exact absurd (by simp) h
  | cons access rest ih =>
    cases hgranted : access.granted loader with
    | false => simp [upToRefusal, hgranted]
    | true =>
      have hrest : ¬ ∀ access ∈ rest, access.granted loader = true := by
        intro hall
        exact h (List.forall_mem_cons.mpr ⟨hgranted, hall⟩)
      have hone : ∀ other ∈ [access], other.granted loader = true := by
        intro other hmem
        rw [List.mem_singleton.mp hmem]
        exact hgranted
      have hcons : ∀ list, upToRefusal loader (access :: list) =
          access :: upToRefusal loader list := fun list => upToRefusal_append_of_granted hone
      rw [List.cons_append, hcons, hcons, ih hrest]

/-- A script makes these requests up to the first that is refused, and fails exactly if one is. -/
structure Asks (loader : Loader) (s : Script) (requests : List Access) : Prop where
  accesses : s.accesses = upToRefusal loader requests
  failure : s.failure = none ↔ ∀ access ∈ requests, access.granted loader = true

variable {s t : Script}

/-- A script that neither asks nor fails. -/
theorem Asks.nothing (hasks : s.accesses = []) (hfailure : s.failure = none) :
    Asks loader s [] :=
  ⟨hasks, iff_of_true hfailure (by simp)⟩

/-- **Scripts in turn make their requests in turn**: what the second asks for is asked for only if
the first was refused nothing. -/
theorem Asks.andThen (hs : Asks loader s first) (ht : Asks loader t second) :
    Asks loader (s.andThen t) (first ++ second) := by
  by_cases hgranted : ∀ access ∈ first, access.granted loader = true
  · have hnone := hs.failure.mpr hgranted
    constructor
    · rw [Script.andThen_of_none hnone, upToRefusal_append_of_granted hgranted]
      change s.accesses ++ t.accesses = _
      rw [hs.accesses, ht.accesses, upToRefusal_of_granted hgranted]
    · rw [Script.failure_andThen, hnone, Option.none_or, ht.failure, List.forall_mem_append]
      exact ⟨fun h => ⟨hgranted, h⟩, fun h => h.2⟩
  · obtain ⟨failure, hsome⟩ := Option.ne_none_iff_exists'.mp (mt hs.failure.mp hgranted)
    constructor
    · rw [Script.andThen_of_some hsome, hs.accesses, upToRefusal_append_of_refused hgranted]
    · rw [Script.andThen_of_some hsome, hs.failure, List.forall_mem_append]
      exact ⟨fun h => absurd h hgranted, fun h => h.1⟩

/-- A single request is made whether or not it is refused. -/
theorem upToRefusal_singleton (access : Access) : upToRefusal loader [access] = [access] := by
  cases h : access.granted loader <;> simp [upToRefusal, h]

/-- A request asks for one thing, and fails as what comes of it does. -/
theorem Asks.request {access : Access} {answer : Except Failure Block}
    (h : answer.isOk = access.granted loader) : Asks loader (.request access answer) [access] := by
  cases answer with
  | error failure =>
    refine ⟨(upToRefusal_singleton access).symm, ?_⟩
    simpa [Script.request, Except.isOk, Except.toBool] using h.symm
  | ok block =>
    refine ⟨(upToRefusal_singleton access).symm, ?_⟩
    simpa [Script.request, Script.write, Except.isOk, Except.toBool] using h.symm

/-- **A leaf asks for its own request**, if it has one. -/
theorem asks_leaf (mode : Mode) (place : NodePath) (node : Node) :
    Asks loader (Script.leaf loader mode place node) (node.request? mode).toList := by
  cases node with
  | network name model =>
    cases mode with
    | link => exact Asks.nothing rfl rfl
    | embed =>
      refine Asks.request ?_
      rw [networkBlock, Access.granted]
      cases loader.model model with
      | error cause => rfl
      | ok found => cases h : found.recipe <;> simp [h, Except.isOk, Except.toBool]
  | embedTraining data =>
    cases mode with
    | link => exact Asks.nothing rfl rfl
    | embed =>
      refine Asks.request ?_
      rw [dataBlock, Access.granted]
      cases loader.dataset data with
      | error cause => rfl
      | ok dataset => rfl
  | _ => cases mode <;> exact Asks.nothing rfl rfl

/-- A container asks for what its children ask for. -/
theorem Asks.container (opening : String) (h : Asks loader s first) :
    Asks loader (.container opening s) first := by
  have hclosed := h.andThen (Asks.nothing rfl rfl : Asks loader { steps := [.closing "\x7d"] } [])
  rw [List.append_nil] at hclosed
  exact (Asks.nothing rfl rfl : Asks loader { steps := [.blank, .opening opening] } []).andThen
    hclosed

/-- **A tree makes the requests of its nodes in document order**, up to the first that is
refused. -/
theorem asks_ofNodes (mode : Mode) (above : NodePath) (nodes : List Node) :
    Asks loader (Script.ofNodes loader mode above nodes)
      (requestsAt mode (Node.locatedAll above nodes)) := by
  induction nodes using Node.forestInduction generalizing above with
  | nil => exact Asks.nothing rfl rfl
  | cons node rest below after =>
    rw [Node.locatedAll_cons, requestsAt_cons, requestsAt_append, ← List.append_assoc]
    refine Asks.andThen ?_ (after above)
    cases h : opening? node with
    | none =>
      rw [Script.ofNode_leaf h, children_of_leaf h]
      change Asks _ _ ((node.request? mode).toList ++ [])
      rw [List.append_nil]
      exact asks_leaf mode _ node
    | some opening =>
      -- a container has no request of its own, so only those of its children are left
      have hrequest : node.request? mode = none := by
        cases node <;> cases h <;> cases mode <;> rfl
      rw [Script.ofNode_container h, hrequest]
      exact (below _).container opening

end Java

/-- Linking asks for nothing. -/
theorem Program.requests_link (program : Program) : program.requests .link = [] := by
  rw [Program.requests, requestsAt, List.filterMap_eq_nil_iff]
  rintro ⟨path, node⟩ _
  cases node <;> rfl

/-- What a checked program asks for. -/
theorem accesses_compile_of_single (hmains : program.mainPaths.length ≤ 1) :
    (compile loader options program).accesses =
      upToRefusal loader (program.requests options.mode) := by
  rw [compile_of_single hmains]
  change (generate loader options program).accesses = _
  rw [accesses_generate]
  exact (asks_ofNodes options.mode .top program.nodes).accesses

/-- **A run asks for what its nodes name, in document order, and stops at the first refusal.** With
several main functions it fails before it asks for anything, and where resources are linked it never
asks. A run comes to an end unless a line of it cannot be indented. -/
theorem compile_requests_in_order (loader : Loader) (options : Options) (program : Program) :
    ((compile? loader options program).isSome ↔
      1 < program.mainPaths.length ∨ options.writable loader program) ∧
    ∀ run, compile? loader options program = some run →
      (1 < program.mainPaths.length →
        run.result = .error (.duplicateMain program.mainPaths) ∧ run.accesses = []) ∧
      (program.mainPaths.length ≤ 1 → options.mode = .link → run.accesses = []) ∧
      (program.mainPaths.length ≤ 1 → options.mode = .embed →
        run.accesses = upToRefusal loader (program.requests .embed)) := by
  refine ⟨isSome_compile?, fun run hrun => ?_⟩
  obtain rfl := compile?_eq_some hrun
  refine ⟨fun hmains => ?_, fun hmains hlink => ?_, fun hmains hembed => ?_⟩
  · rw [compile_of_several hmains]
    exact ⟨rfl, rfl⟩
  · rw [accesses_compile_of_single hmains, hlink, Program.requests_link]
    rfl
  · rw [accesses_compile_of_single hmains, hembed]

/-- The missing training data is the last thing asked for: not the network behind it, and nothing
for the function that would give the data. -/
theorem compile_requests_in_order_refused :
    let loader : Loader :=
      ⟨fun _ => .ok ⟨"BasicNetwork", some ⟨"feedforward", "?:B->?"⟩⟩,
       fun path => .error (.unknownDataset path)⟩
    let program : Program :=
      ⟨[.classDecl "Foo"
        [.network "first" ⟨"net.eg"⟩,
         .staticFunction "run" [.loadTraining "data" ⟨"xor.egb"⟩, .embedTraining ⟨"xor.egb"⟩],
         .network "second" ⟨"net.eg"⟩]]⟩
    program.mainPaths.length ≤ 1 ∧
      program.requests .embed = [.model ⟨"net.eg"⟩, .dataset ⟨"xor.egb"⟩, .model ⟨"net.eg"⟩] ∧
      ∃ run, compile? loader ⟨.embed, 4⟩ program = some run ∧
        run.accesses = [.model ⟨"net.eg"⟩, .dataset ⟨"xor.egb"⟩] := by
  intro loader program
  have hmains : program.mainPaths.length ≤ 1 := by decide
  have hrun : compile? loader ⟨.embed, 4⟩ program = some (compile loader ⟨.embed, 4⟩ program) := rfl
  have horder := (compile_requests_in_order loader ⟨.embed, 4⟩ program).2 _ hrun
  exact ⟨hmains, rfl, _, hrun, horder.2.2 hmains rfl⟩

end NetScribe
