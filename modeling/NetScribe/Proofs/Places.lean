import NetScribe.Tree.Visitor

/-!
# The places of a tree

`Node.located` lists the nodes of a tree in document order, each with its place. This file says
what those places are, in two ways that do not mention the listing: `Leads` follows labels from the
top down to a node, and a visitor that goes everywhere is called at the listed places, in their
order, and nowhere else.

Trees are nested lists, so everything is proved by one induction over lists of nodes
(`forestInduction`), which hands each node's children and the nodes behind it to the step.
`locatedAll_cons` and `visitNodes_cons` are the two equations the step needs.
-/

namespace NetScribe

namespace Node

mutual

/-- The children of a node are reached by the induction over lists of nodes. -/
theorem childrenInduction {motive : List Node → Prop} (nil : motive [])
    (cons : ∀ node rest, motive node.children → motive rest → motive (node :: rest)) :
    ∀ node : Node, motive node.children
  | .classDecl _ children => forestInduction nil cons children
  | .mainFunction children => forestInduction nil cons children
  | .staticFunction _ children => forestInduction nil cons children
  | .comment _ => nil
  | .const _ _ _ => nil
  | .call _ _ => nil
  | .array _ _ => nil
  | .network _ _ => nil
  | .embedTraining _ => nil
  | .loadTraining _ _ => nil

/-- **Induction over lists of nodes**: a list has its first node, the nodes below that one, and the
nodes behind it. -/
@[elab_as_elim]
theorem forestInduction {motive : List Node → Prop} (nil : motive [])
    (cons : ∀ node rest, motive node.children → motive rest → motive (node :: rest)) :
    ∀ nodes : List Node, motive nodes
  | [] => nil
  | node :: rest =>
    cons node rest (childrenInduction nil cons node) (forestInduction nil cons rest)

end

/-! ## The listing -/

/-- A node comes before the nodes below it, which are one label further down. -/
theorem located_eq (above : NodePath) (node : Node) :
    node.located above =
      (above.push node.label, node) :: locatedAll (above.push node.label) node.children := by
  cases node <;> rfl

@[simp] theorem locatedAll_nil (above : NodePath) : locatedAll above [] = [] := rfl

/-- **The listing, one node at a time.** -/
theorem locatedAll_cons (above : NodePath) (node : Node) (rest : List Node) :
    locatedAll above (node :: rest) =
      (above.push node.label, node) ::
        (locatedAll (above.push node.label) node.children ++ locatedAll above rest) := by
  rw [locatedAll, located_eq, List.cons_append]

/-- The labels that lead from a list of nodes down to a node in it or below it. -/
inductive Leads : List Node → List String → Node → Prop
  /-- The node is one of the list. -/
  | here {nodes : List Node} {node : Node} :
      node ∈ nodes → Leads nodes [node.label] node
  /-- The node is below one of the list. -/
  | inside {nodes : List Node} {parent node : Node} {labels : List String} :
      parent ∈ nodes → Leads parent.children labels node →
      Leads nodes (parent.label :: labels) node

namespace Leads

variable {nodes rest : List Node} {first node : Node} {labels : List String}

theorem not_nil : ¬ Leads [] labels node := by
  intro h
  cases h with
  | here hmem => exact absurd hmem (by simp)
  | inside hmem _ => exact absurd hmem (by simp)

/-- No node is above all labels. -/
theorem ne_nil (h : Leads nodes labels node) : labels ≠ [] := by
  cases h with
  | here _ => exact List.cons_ne_nil _ _
  | inside _ _ => exact List.cons_ne_nil _ _

/-- Into the first node of a list, below it, or into the nodes behind it. -/
theorem cons_iff :
    Leads (first :: rest) labels node ↔
      (labels = [first.label] ∧ node = first) ∨
      (∃ labels', labels = first.label :: labels' ∧ Leads first.children labels' node) ∨
      Leads rest labels node := by
  constructor
  · intro h
    cases h with
    | here hmem =>
      rcases List.mem_cons.mp hmem with rfl | hmem
      · exact Or.inl ⟨rfl, rfl⟩
      · exact Or.inr (Or.inr (.here hmem))
    | inside hmem hlow =>
      rcases List.mem_cons.mp hmem with rfl | hmem
      · exact Or.inr (Or.inl ⟨_, rfl, hlow⟩)
      · exact Or.inr (Or.inr (.inside hmem hlow))
  · rintro (⟨rfl, rfl⟩ | ⟨labels', rfl, hlow⟩ | h)
    · exact .here List.mem_cons_self
    · exact .inside List.mem_cons_self hlow
    · cases h with
      | here hmem => exact .here (List.mem_cons_of_mem _ hmem)
      | inside hmem hlow => exact .inside (List.mem_cons_of_mem _ hmem) hlow

end Leads

/-- **The listed places are the places labels lead to.** -/
theorem mem_locatedAll {above path : NodePath} {nodes : List Node} {node : Node} :
    (path, node) ∈ locatedAll above nodes ↔
      ∃ labels, path.labels = above.labels ++ labels ∧ Leads nodes labels node := by
  induction nodes using forestInduction generalizing above with
  | nil =>
    constructor
    · intro h
      exact absurd h (by simp)
    · rintro ⟨_, -, h⟩
      exact absurd h Leads.not_nil
  | cons first rest below after =>
    rw [locatedAll_cons, List.mem_cons, List.mem_append, below, after]
    constructor
    · rintro (h | ⟨labels, hpath, h⟩ | ⟨labels, hpath, h⟩)
      · obtain ⟨rfl, rfl⟩ := Prod.mk.inj h
        exact ⟨[node.label], rfl, .here List.mem_cons_self⟩
      · refine ⟨first.label :: labels, ?_, .inside List.mem_cons_self h⟩
        rw [hpath, NodePath.labels_push, List.append_assoc, List.singleton_append]
      · exact ⟨labels, hpath, Leads.cons_iff.mpr (Or.inr (Or.inr h))⟩
    · rintro ⟨labels, hpath, h⟩
      rcases Leads.cons_iff.mp h with ⟨rfl, rfl⟩ | ⟨labels', rfl, hlow⟩ | hrest
      · exact Or.inl (Prod.ext (congrArg NodePath.mk hpath) rfl)
      · refine Or.inr (Or.inl ⟨labels', ?_, hlow⟩)
        rw [hpath, NodePath.labels_push, List.append_assoc, List.singleton_append]
      · exact Or.inr (Or.inr ⟨labels, hpath, hrest⟩)

end Node

/-- A program's listed places are the places labels lead to from its top. -/
theorem Program.mem_located {program : Program} {path : NodePath} {node : Node} :
    (path, node) ∈ program.located ↔ Node.Leads program.nodes path.labels node := by
  rw [Program.located, Node.mem_locatedAll]
  constructor
  · rintro ⟨labels, hpath, h⟩
    rw [hpath]
    exact h
  · intro h
    exact ⟨path.labels, rfl, h⟩

namespace Visitor

variable {σ : Type}

/-! ## The walk -/

/-- Every node is visited around the nodes below it; a leaf has none. -/
theorem visitNode_eq (v : Visitor σ) (node : Node) (walk : Walk σ) :
    v.visitNode node walk = v.around node (v.visitNodes node.children) walk := by
  cases node <;> rfl

/-- **The walk, one node at a time.** -/
theorem visitNodes_cons (v : Visitor σ) (node : Node) (rest : List Node) (walk : Walk σ) :
    v.visitNodes (node :: rest) walk =
      v.visitNodes rest (v.around node (v.visitNodes node.children) walk) := by
  rw [visitNodes, visitNode_eq]

/-- A visitor that looks below every node and does nothing on the way out. -/
structure Plain (v : Visitor σ) : Prop where
  descends : ∀ node path state, (v.enter node path state).1 = true
  leaves : ∀ node path state, v.exit node path state = state

/-- What a visitor does on the way into a place. -/
def note (v : Visitor σ) (state : σ) (place : NodePath × Node) : σ :=
  (v.enter place.2 place.1 state).2

/-- **A plain visitor goes through the listing**, and the walk ends where it began. -/
theorem Plain.visitNodes_eq {v : Visitor σ} (hv : v.Plain) (nodes : List Node) (path : NodePath)
    (state : σ) :
    v.visitNodes nodes ⟨path, state⟩ =
      ⟨path, (Node.locatedAll path nodes).foldl v.note state⟩ := by
  induction nodes using Node.forestInduction generalizing path state with
  | nil => rfl
  | cons node rest below after =>
    have hstep : v.around node (v.visitNodes node.children) ⟨path, state⟩ =
        ⟨path, (Node.locatedAll (path.push node.label) node.children).foldl v.note
          (v.note state (path.push node.label, node))⟩ := by
      simp only [around, hv.descends, hv.leaves, if_true, below, NodePath.pop_push]
      rfl
    rw [visitNodes_cons, hstep, after, Node.locatedAll_cons, List.foldl_cons, List.foldl_append]

theorem Plain.visit_eq {v : Visitor σ} (hv : v.Plain) (program : Program) (state : σ) :
    v.visit program state = program.located.foldl v.note state := by
  rw [visit, hv.visitNodes_eq]
  rfl

/-- The visitor that writes down where it is called and on which node. -/
def recorder : Visitor (List (NodePath × Node)) where
  enter node path places := (true, places ++ [(path, node)])

/-- **The listing is what a visitor is shown.** -/
theorem visit_recorder (program : Program) : recorder.visit program [] = program.located := by
  have hplain : recorder.Plain := ⟨fun _ _ _ => rfl, fun _ _ _ => rfl⟩
  have hnote : ∀ (places listed : List (NodePath × Node)),
      listed.foldl recorder.note places = places ++ listed := by
    intro places listed
    induction listed generalizing places with
    | nil => rw [List.foldl_nil, List.append_nil]
    | cons place rest ih =>
      rw [List.foldl_cons, ih]
      exact List.append_assoc places [place] rest
  rw [hplain.visit_eq, hnote, List.nil_append]

end Visitor

end NetScribe
