import NetScribe.Proofs.Places

/-!
# The calls of a visitor

A visitor may remember anything and refuse to look below any node, so what it is shown depends on
what it answered before. `Visitor.logged` writes the calls of any visitor down without changing what
it does, and `Tour` says what such a log is: every call can be given the address of the node it is
for, and then each node whose ancestors all let the walk through is entered once and left once, at
its own place, in document order and properly nested.

A tour of a list of nodes is put together from the tour of the first node's children, if they are
visited, and the tour of the nodes behind it (`Tour.Below.cons`); `readdress` moves the addresses of
both to where they belong. The walk does the same (`exists_tour`).
-/

namespace NetScribe

/-! ## Addresses -/

/-- A node and what leads to it in a list of nodes: its position and those of its ancestors, from
the top down, and their labels. -/
inductive Node.Stands : List Node → List Nat → List String → Node → Prop
  /-- The node is one of the list. -/
  | here {nodes : List Node} {i : Nat} {node : Node} :
      nodes[i]? = some node → Stands nodes [i] [node.label] node
  /-- The node is below one of the list. -/
  | inside {nodes : List Node} {i : Nat} {parent node : Node} {address : List Nat}
      {labels : List String} :
      nodes[i]? = some parent → Stands parent.children address labels node →
      Stands nodes (i :: address) (parent.label :: labels) node

/-- The address, one node further. -/
def nextAddress : List Nat → List Nat
  | [] => []
  | i :: address => (i + 1) :: address

/-- An address leads to a node above the one another leads to. -/
def Above (address other : List Nat) : Prop :=
  address <+: other ∧ address ≠ other

namespace Node.Stands

variable {first node : Node} {rest nodes : List Node} {address : List Nat} {labels : List String}

theorem ne_nil (h : Stands nodes address labels node) : address ≠ [] := by
  cases h with
  | here _ => exact List.cons_ne_nil _ _
  | inside _ _ => exact List.cons_ne_nil _ _

/-- The first node of a list, a node below it, or one of the nodes behind it. -/
theorem cons_iff :
    Stands (first :: rest) address labels node ↔
      (address = [0] ∧ labels = [first.label] ∧ node = first) ∨
      (∃ address' labels', address = 0 :: address' ∧ labels = first.label :: labels' ∧
        Stands first.children address' labels' node) ∨
      ∃ address', address = nextAddress address' ∧ Stands rest address' labels node := by
  constructor
  · intro h
    cases h with
    | @here _ i _ hnode =>
      cases i with
      | zero =>
        cases hnode
        exact Or.inl ⟨rfl, rfl, rfl⟩
      | succ i => exact Or.inr (Or.inr ⟨[i], rfl, .here hnode⟩)
    | @inside _ i parent _ address labels hparent hlow =>
      cases i with
      | zero =>
        cases hparent
        exact Or.inr (Or.inl ⟨address, labels, rfl, rfl, hlow⟩)
      | succ i => exact Or.inr (Or.inr ⟨i :: address, rfl, .inside hparent hlow⟩)
  · rintro (⟨rfl, rfl, rfl⟩ | ⟨address', labels', rfl, rfl, hlow⟩ | ⟨address', rfl, h⟩)
    · exact .here rfl
    · exact .inside rfl hlow
    · cases h with
      | here hnode => exact .here hnode
      | inside hparent hlow => exact .inside hparent hlow

end Node.Stands

/-! ## Calls and tours -/

/-- One call of a visitor: on the way in, with the answer it gave, or on the way out. -/
inductive Call where
  | enter (node : Node) (path : NodePath) (descend : Bool)
  | exit (node : Node) (path : NodePath)

namespace Call

/-- The node a call is for. -/
def node : Call → Node
  | .enter node _ _ => node
  | .exit node _ => node

/-- The place a call is given. -/
def path : Call → NodePath
  | .enter _ path _ => path
  | .exit _ path => path

/-- A call on the way in. -/
def enters : Call → Bool
  | .enter _ _ _ => true
  | .exit _ _ => false

/-- A call on the way in that keeps the walk out of the nodes below. -/
def refuses : Call → Bool
  | .enter _ _ descend => !descend
  | .exit _ _ => false

end Call

/-- A call and the address of the node it is for. -/
structure PlacedCall where
  address : List Nat
  call : Call

namespace PlacedCall

/-- The call at another address. -/
def readdress (f : List Nat → List Nat) (c : PlacedCall) : PlacedCall :=
  { c with address := f c.address }

/-- How many calls there are at an address, on the way in or on the way out. -/
def countAt (entering : Bool) (address : List Nat) (calls : List PlacedCall) : Nat :=
  calls.countP fun c => c.call.enters = entering ∧ c.address = address

/-- The addresses of the nodes that are entered, in turn. -/
def entered (calls : List PlacedCall) : List (List Nat) :=
  (calls.filter fun c => c.call.enters).map address

/-- No node above the address refused to let the walk through. -/
def Reached (calls : List PlacedCall) (address : List Nat) : Prop :=
  ∀ c ∈ calls, c.call.refuses = true → ¬ Above c.address address

/-- Calls that are properly nested: the two calls for a node enclose calls for nodes below it, and
behind them comes no call for the node or for one below it. -/
inductive Nested : List PlacedCall → Prop
  | nil : Nested []
  | node {address : List Nat} {node : Node} {path : NodePath} {descend : Bool}
      {inner after : List PlacedCall} :
      Nested inner → (∀ c ∈ inner, Above address c.address) →
      Nested after → (∀ c ∈ after, ¬ address <+: c.address) →
      Nested (⟨address, .enter node path descend⟩ ::
        (inner ++ ⟨address, .exit node path⟩ :: after))

end PlacedCall

open PlacedCall

/-- **What a walk through nodes is**, as the calls it makes from a place on. -/
structure Tour (start : NodePath) (nodes : List Node) (calls : List PlacedCall) : Prop where
  /-- Every call is for the node at its address, with the labels that lead there. -/
  placed : ∀ c ∈ calls, ∃ labels, Node.Stands nodes c.address labels c.call.node ∧
    c.call.path.labels = start.labels ++ labels
  /-- A node is entered and left once if no node above it refused. -/
  once : ∀ address labels node, Node.Stands nodes address labels node →
    Reached calls address → ∀ entering, countAt entering address calls = 1
  /-- And otherwise never. -/
  never : ∀ address labels node, Node.Stands nodes address labels node →
    ¬ Reached calls address → ∀ entering, countAt entering address calls = 0
  /-- Nodes are entered in document order. -/
  ordered : (entered calls).Pairwise (· < ·)
  /-- Calls are properly nested. -/
  nested : Nested calls

/-! ## Moving addresses -/

theorem prefix_nextAddress {address other : List Nat} :
    nextAddress address <+: nextAddress other ↔ address <+: other := by
  cases address with
  | nil => simp [nextAddress]
  | cons i address =>
    cases other with
    | nil => simp [nextAddress]
    | cons j other => simp [nextAddress, List.cons_prefix_cons]

theorem nextAddress_lt {address other : List Nat} (h : address < other) :
    nextAddress address < nextAddress other := by
  cases h with
  | nil => exact .nil
  | rel h => exact .rel (Nat.succ_lt_succ h)
  | cons h => exact .cons h

/-- A way to move addresses that keeps what is above what, and the order. -/
structure Moves (f : List Nat → List Nat) : Prop where
  isPrefix : ∀ address other, f address <+: f other ↔ address <+: other
  increasing : ∀ address other, address < other → f address < f other

theorem entered_map (f : List Nat → List Nat) (calls : List PlacedCall) :
    entered (calls.map (readdress f)) = (entered calls).map f := by
  rw [entered, entered, List.filter_map, List.map_map, List.map_map]
  rfl

theorem exists_of_mem_entered {calls : List PlacedCall} {address : List Nat}
    (h : address ∈ entered calls) : ∃ c ∈ calls, c.address = address := by
  obtain ⟨c, hc, rfl⟩ := List.mem_map.mp h
  exact ⟨c, (List.mem_filter.mp hc).1, rfl⟩

theorem moves_inside : Moves (List.cons 0) :=
  ⟨fun _ _ => by simp [List.cons_prefix_cons], fun _ _ h => .cons h⟩

theorem moves_next : Moves nextAddress :=
  ⟨fun _ _ => prefix_nextAddress, fun _ _ => nextAddress_lt⟩

/-- What is inside the first node is apart from what is behind it. -/
theorem not_inside_prefix_next {address other : List Nat} :
    ¬ 0 :: address <+: nextAddress other := by
  cases other <;> simp [nextAddress, List.cons_prefix_cons]

theorem not_next_prefix_inside {address other : List Nat} (h : other ≠ []) :
    ¬ nextAddress other <+: 0 :: address := by
  cases other with
  | nil => exact absurd rfl h
  | cons i other => simp [nextAddress, List.cons_prefix_cons]

/-- And comes before it. -/
theorem inside_lt_next {address other : List Nat} (h : other ≠ []) :
    0 :: address < nextAddress other := by
  obtain ⟨i, rest, rfl⟩ := List.exists_cons_of_ne_nil h
  exact .rel (Nat.succ_pos i)

namespace Moves

variable {f : List Nat → List Nat} {address other : List Nat} {calls : List PlacedCall}

theorem inj (hf : Moves f) : f address = f other ↔ address = other := by
  refine ⟨fun h => ?_, congrArg f⟩
  have hle : address <+: other := (hf.isPrefix _ _).mp (h ▸ List.prefix_rfl)
  have hge : other <+: address := (hf.isPrefix _ _).mp (h ▸ List.prefix_rfl)
  exact hle.eq_of_length (Nat.le_antisymm hle.length_le hge.length_le)

theorem above_iff (hf : Moves f) : Above (f address) (f other) ↔ Above address other := by
  rw [Above, Above, hf.isPrefix, Ne, Ne, hf.inj]

theorem countAt_map (hf : Moves f) (entering : Bool) :
    countAt entering (f address) (calls.map (readdress f)) = countAt entering address calls := by
  rw [countAt, countAt, List.countP_map]
  simp only [Function.comp_def, readdress, hf.inj]

theorem reached_map (hf : Moves f) :
    Reached (calls.map (readdress f)) (f address) ↔ Reached calls address := by
  simp [Reached, readdress, hf.above_iff]

theorem nested_map (hf : Moves f) (h : Nested calls) : Nested (calls.map (readdress f)) := by
  induction h with
  | nil => exact .nil
  | @node address node path descend inner after _ hinner _ hafter ihInner ihAfter =>
    rw [List.map_cons, List.map_append, List.map_cons]
    refine Nested.node ihInner ?_ ihAfter ?_
    · simp only [List.mem_map]
      rintro _ ⟨c, hc, rfl⟩
      exact hf.above_iff.mpr (hinner c hc)
    · simp only [List.mem_map]
      rintro _ ⟨c, hc, rfl⟩
      exact mt (hf.isPrefix _ _).mp (hafter c hc)

end Moves

/-! ## A tour, one node at a time -/

namespace Tour

variable {start : NodePath} {node : Node} {rest : List Node} {inner after : List PlacedCall}

/-- Nothing is called where there is nothing. -/
theorem nil (start : NodePath) : Tour start [] [] where
  placed := by simp
  once address labels node hstands := by
    rcases hstands with hnode | ⟨hnode, _⟩ <;> cases hnode
  never address labels node hstands := by
    rcases hstands with hnode | ⟨hnode, _⟩ <;> cases hnode
  ordered := .nil
  nested := .nil

/-- The calls of a walk through a node, the nodes below it and the nodes behind it. -/
def around (node : Node) (path : NodePath) (descend : Bool) (inner after : List PlacedCall) :
    List PlacedCall :=
  ⟨[0], .enter node path descend⟩ ::
    (inner.map (readdress (List.cons 0)) ++
      ⟨[0], .exit node path⟩ :: after.map (readdress nextAddress))

/-- What comes of the nodes below: their tour, or nothing if they are not visited. -/
inductive Below (path : NodePath) (children : List Node) : Bool → List PlacedCall → Prop
  | visited {inner : List PlacedCall} : Tour path children inner → Below path children true inner
  | skipped : Below path children false []

theorem countAt_around (node : Node) (path : NodePath) (descend entering : Bool)
    (address : List Nat) (inner after : List PlacedCall) :
    countAt entering address (around node path descend inner after) =
      (if [0] = address then 1 else 0) +
        countAt entering address (inner.map (readdress (List.cons 0))) +
        countAt entering address (after.map (readdress nextAddress)) := by
  simp only [countAt, around, List.countP_cons, List.countP_append, Call.enters]
  cases entering <;> by_cases h : [0] = address <;> simp [h] <;> omega

theorem reached_around {node : Node} {path : NodePath} {descend : Bool} {address : List Nat}
    {inner after : List PlacedCall} :
    Reached (around node path descend inner after) address ↔
      (descend = false → ¬ Above [0] address) ∧
        Reached (inner.map (readdress (List.cons 0))) address ∧
        Reached (after.map (readdress nextAddress)) address := by
  simp only [Reached, around, List.forall_mem_cons, List.forall_mem_append, Call.refuses]
  simp

theorem entered_around (node : Node) (path : NodePath) (descend : Bool)
    (inner after : List PlacedCall) :
    entered (around node path descend inner after) =
      [0] :: ((entered inner).map (List.cons 0) ++ (entered after).map nextAddress) := by
  rw [← entered_map, ← entered_map, entered, around, List.filter_cons_of_pos rfl,
    List.filter_append, List.filter_cons_of_neg Bool.false_ne_true, List.map_cons, List.map_append]
  rfl

/-- Calls for nodes that are neither at an address nor above it do not count there. -/
theorem countAt_eq_zero {calls : List PlacedCall} {address : List Nat}
    (h : ∀ c ∈ calls, ¬ c.address <+: address) (entering : Bool) :
    countAt entering address calls = 0 := by
  rw [countAt, List.countP_eq_zero]
  intro c hc hat
  exact h c hc ((of_decide_eq_true hat).2 ▸ List.prefix_rfl)

theorem reached_of_apart {calls : List PlacedCall} {address : List Nat}
    (h : ∀ c ∈ calls, ¬ c.address <+: address) : Reached calls address :=
  fun c hc _ habove => h c hc habove.1

theorem ne_nil {nodes : List Node} {calls : List PlacedCall} (h : Tour start nodes calls) :
    ∀ c ∈ calls, c.address ≠ [] := by
  intro c hc
  obtain ⟨labels, hstands, -⟩ := h.placed c hc
  exact hstands.ne_nil

theorem Below.ne_nil {path : NodePath} {children : List Node} {descend : Bool}
    (h : Below path children descend inner) : ∀ c ∈ inner, c.address ≠ [] := by
  cases h with
  | visited htour => exact htour.ne_nil
  | skipped => simp

/-- Calls behind the first node are apart from it and all below it. -/
theorem apart_of_behind (h : Tour start rest after) (address : List Nat) :
    ∀ c ∈ after.map (readdress nextAddress), ¬ c.address <+: 0 :: address := by
  simp only [List.mem_map]
  rintro _ ⟨c, hc, rfl⟩
  exact not_next_prefix_inside (h.ne_nil c hc)

/-- And the other way round. -/
theorem apart_of_below (inner : List PlacedCall) (address : List Nat) :
    ∀ c ∈ inner.map (readdress (List.cons 0)), ¬ c.address <+: nextAddress address := by
  simp only [List.mem_map]
  rintro _ ⟨c, hc, rfl⟩
  exact not_inside_prefix_next

section Cons

variable {path : NodePath} {descend : Bool}

/-- The first node is always reached, and called for once each way. -/
theorem at_first (hinner : Below path node.children descend inner)
    (hafter : Tour start rest after) :
    Reached (around node path descend inner after) [0] ∧
      ∀ entering, countAt entering [0] (around node path descend inner after) = 1 := by
  have hout := hafter.apart_of_behind []
  have hin : ∀ c ∈ inner.map (readdress (List.cons 0)), ¬ c.address <+: [0] := by
    simp only [List.mem_map]
    rintro _ ⟨c, hc, rfl⟩ hle
    simp only [readdress, List.cons_prefix_cons, true_and] at hle
    exact hinner.ne_nil c hc (List.prefix_nil.mp hle)
  constructor
  · rw [reached_around]
    exact ⟨fun _ habove => habove.2 rfl, reached_of_apart hin, reached_of_apart hout⟩
  · intro entering
    rw [countAt_around, if_pos rfl, countAt_eq_zero hin, countAt_eq_zero hout]

/-- The nodes below it are reached if it lets the walk through and none between refuses. -/
theorem at_below (node : Node) (path : NodePath) (descend : Bool) (inner : List PlacedCall)
    (hafter : Tour start rest after) {address : List Nat} (hne : address ≠ []) :
    (Reached (around node path descend inner after) (0 :: address) ↔
        descend = true ∧ Reached inner address) ∧
      ∀ entering, countAt entering (0 :: address) (around node path descend inner after) =
        countAt entering address inner := by
  have hout := hafter.apart_of_behind address
  have hdiffer : [0] ≠ 0 :: address := by simpa using hne.symm
  constructor
  · rw [reached_around, moves_inside.reached_map]
    constructor
    · rintro ⟨hdescend, hreached, -⟩
      refine ⟨?_, hreached⟩
      rw [← Bool.not_eq_false]
      exact fun hrefused => hdescend hrefused ⟨by simp [List.cons_prefix_cons], hdiffer⟩
    · rintro ⟨hdescend, hreached⟩
      refine ⟨fun hrefused => ?_, hreached, reached_of_apart hout⟩
      rw [hdescend] at hrefused
      cases hrefused
  · intro entering
    rw [countAt_around, if_neg hdiffer, moves_inside.countAt_map, countAt_eq_zero hout,
      Nat.zero_add, Nat.add_zero]

/-- What happens behind it is not its business. -/
theorem at_behind (node : Node) (path : NodePath) (descend : Bool)
    (inner after : List PlacedCall) (address : List Nat) :
    (Reached (around node path descend inner after) (nextAddress address) ↔
        Reached after address) ∧
      ∀ entering, countAt entering (nextAddress address) (around node path descend inner after) =
        countAt entering address after := by
  have hin := apart_of_below inner address
  have hdiffer : [0] ≠ nextAddress address := by
    cases address <;> simp [nextAddress]
  constructor
  · rw [reached_around, moves_next.reached_map]
    exact ⟨fun h => h.2.2, fun h =>
      ⟨fun _ habove => not_inside_prefix_next habove.1, reached_of_apart hin, h⟩⟩
  · intro entering
    rw [countAt_around, if_neg hdiffer, moves_next.countAt_map, countAt_eq_zero hin,
      Nat.zero_add]

theorem countAt_cases {nodes : List Node} {calls : List PlacedCall} (h : Tour start nodes calls)
    {address : List Nat} {labels : List String} {found : Node}
    (hstands : Node.Stands nodes address labels found) (entering : Bool) :
    Reached calls address ∧ countAt entering address calls = 1 ∨
      ¬ Reached calls address ∧ countAt entering address calls = 0 := by
  by_cases hreached : Reached calls address
  · exact Or.inl ⟨hreached, h.once _ _ _ hstands hreached entering⟩
  · exact Or.inr ⟨hreached, h.never _ _ _ hstands hreached entering⟩

/-- **Once if reached and otherwise never**, wherever a node stands. -/
theorem Below.countAt_cons (hinner : Below path node.children descend inner)
    (hafter : Tour start rest after) {address : List Nat} {labels : List String} {found : Node}
    (hstands : Node.Stands (node :: rest) address labels found) (entering : Bool) :
    Reached (around node path descend inner after) address ∧
        countAt entering address (around node path descend inner after) = 1 ∨
      ¬ Reached (around node path descend inner after) address ∧
        countAt entering address (around node path descend inner after) = 0 := by
  rcases Node.Stands.cons_iff.mp hstands with
    ⟨rfl, -, -⟩ | ⟨address', labels', rfl, -, hlow⟩ | ⟨address', rfl, hrest⟩
  · obtain ⟨hreached, hcount⟩ := at_first hinner hafter
    exact Or.inl ⟨hreached, hcount entering⟩
  · obtain ⟨hiff, hcount⟩ := at_below node path descend inner hafter hlow.ne_nil
    rw [hiff, hcount]
    cases hinner with
    | visited htour => simpa using htour.countAt_cases hlow entering
    | skipped => exact Or.inr ⟨fun h => Bool.false_ne_true h.1, rfl⟩
  · obtain ⟨hiff, hcount⟩ := at_behind node path descend inner after address'
    rw [hiff, hcount]
    exact hafter.countAt_cases hrest entering

/-- **A tour, one node at a time.** -/
theorem Below.cons (hinner : Below (start.push node.label) node.children descend inner)
    (hafter : Tour start rest after) :
    Tour start (node :: rest) (around node (start.push node.label) descend inner after) where
  placed := by
    have hown : Node.Stands (node :: rest) [0] [node.label] node := .here rfl
    simp only [around, List.forall_mem_cons, List.forall_mem_append, List.forall_mem_map]
    refine ⟨⟨_, hown, rfl⟩, fun c hc => ?_, ⟨_, hown, rfl⟩, fun c hc => ?_⟩
    · cases hinner with
      | visited htour =>
        obtain ⟨labels, hstands, hpath⟩ := htour.placed c hc
        refine ⟨node.label :: labels, .inside rfl hstands, ?_⟩
        rw [readdress, hpath, NodePath.labels_push, List.append_assoc, List.singleton_append]
      | skipped => cases hc
    · obtain ⟨labels, hstands, hpath⟩ := hafter.placed c hc
      exact ⟨labels, Node.Stands.cons_iff.mpr (Or.inr (Or.inr ⟨_, rfl, hstands⟩)), hpath⟩
  once address labels found hstands hreached entering := by
    rcases hinner.countAt_cons hafter hstands entering with ⟨-, hcount⟩ | ⟨hrefused, -⟩
    · exact hcount
    · exact absurd hreached hrefused
  never address labels found hstands hrefused entering := by
    rcases hinner.countAt_cons hafter hstands entering with ⟨hreached, -⟩ | ⟨-, hcount⟩
    · exact absurd hreached hrefused
    · exact hcount
  ordered := by
    have hbelow : (entered inner).Pairwise (· < ·) := by
      cases hinner with
      | visited htour => exact htour.ordered
      | skipped => exact .nil
    rw [entered_around, List.pairwise_cons, List.pairwise_append, List.pairwise_map,
      List.pairwise_map]
    refine ⟨?_, hbelow.imp fun h => moves_inside.increasing _ _ h,
      hafter.ordered.imp fun h => moves_next.increasing _ _ h, ?_⟩
    · simp only [List.forall_mem_append, List.forall_mem_map]
      refine ⟨fun address hmem => ?_, fun address hmem => ?_⟩
      · obtain ⟨c, hc, rfl⟩ := exists_of_mem_entered hmem
        obtain ⟨i, rest, haddress⟩ := List.exists_cons_of_ne_nil (hinner.ne_nil c hc)
        rw [haddress]
        exact .cons .nil
      · obtain ⟨c, hc, rfl⟩ := exists_of_mem_entered hmem
        exact inside_lt_next (hafter.ne_nil c hc)
    · simp only [List.forall_mem_map]
      intro address _ other hmem
      obtain ⟨c, hc, rfl⟩ := exists_of_mem_entered hmem
      exact inside_lt_next (hafter.ne_nil c hc)
  nested := by
    refine Nested.node ?_ ?_ (moves_next.nested_map hafter.nested) ?_
    · cases hinner with
      | visited htour => exact moves_inside.nested_map htour.nested
      | skipped => exact .nil
    · simp only [List.forall_mem_map]
      intro c hc
      refine ⟨by simp [readdress, List.cons_prefix_cons], ?_⟩
      simpa [readdress] using (hinner.ne_nil c hc).symm
    · simp only [List.forall_mem_map]
      intro c _
      exact not_inside_prefix_next

end Cons

end Tour

/-! ## The walk -/

namespace Visitor

variable {σ : Type}

/-- The visitor that does what another does and writes its calls down. -/
def logged (v : Visitor σ) : Visitor (σ × List Call) where
  enter node path s :=
    ((v.enter node path s.1).1, (v.enter node path s.1).2,
      s.2 ++ [.enter node path (v.enter node path s.1).1])
  exit node path s := (v.exit node path s.1, s.2 ++ [.exit node path])

/-- A run and its logged twin go from one state to another at the same place, and the twin writes
these calls down, behind whatever the log held. -/
structure Logs (run : Walk σ → Walk σ)
    (twin : Walk (σ × List Call) → Walk (σ × List Call)) (path : NodePath) (state state' : σ)
    (calls : List Call) : Prop where
  run : run ⟨path, state⟩ = ⟨path, state'⟩
  twin : ∀ log, twin ⟨path, (state, log)⟩ = ⟨path, (state', log ++ calls)⟩

theorem Logs.nothing (path : NodePath) (state : σ) : Logs id id path state state [] :=
  ⟨rfl, fun log => by rw [List.append_nil]; rfl⟩

/-- What is done below a node is done if the visitor says so, between its two calls. -/
theorem around_eq {v : Visitor σ} {node : Node} {path : NodePath} {descend : Bool}
    {state state₁ : σ} {below : Walk σ → Walk σ} {inner : Walk σ}
    (hanswer : v.enter node (path.push node.label) state = (descend, state₁))
    (hinner : (if descend then below else id) ⟨path.push node.label, state₁⟩ = inner) :
    v.around node below ⟨path, state⟩ = ⟨inner.path.pop, v.exit node inner.path inner.state⟩ := by
  rw [← hinner]
  simp only [around, hanswer]
  cases descend <;> rfl

/-- **One node, step by step**: it is entered, the nodes below are visited or not, and it is
left. -/
theorem Logs.around {v : Visitor σ} {node : Node} {path : NodePath} {descend : Bool}
    {state state₁ state₂ : σ} {below : Walk σ → Walk σ}
    {belowTwin : Walk (σ × List Call) → Walk (σ × List Call)} {calls : List Call}
    (hanswer : v.enter node (path.push node.label) state = (descend, state₁))
    (hbelow : Logs (if descend then below else id) (if descend then belowTwin else id)
      (path.push node.label) state₁ state₂ calls) :
    Logs (v.around node below) (v.logged.around node belowTwin) path state
      (v.exit node (path.push node.label) state₂)
      (.enter node (path.push node.label) descend ::
        (calls ++ [.exit node (path.push node.label)])) := by
  constructor
  · rw [around_eq hanswer hbelow.run, NodePath.pop_push]
  · intro log
    have htwin : v.logged.enter node (path.push node.label) (state, log) =
        (descend, state₁, log ++ [.enter node (path.push node.label) descend]) := by
      simp only [logged, hanswer]
    rw [around_eq htwin (hbelow.twin _), NodePath.pop_push]
    simp [logged]

/-- **The log of a walk is a tour.** -/
theorem exists_tour (v : Visitor σ) (nodes : List Node) (start : NodePath) (state : σ) :
    ∃ calls state', Tour start nodes calls ∧
      Logs (v.visitNodes nodes) (v.logged.visitNodes nodes) start state state'
        (calls.map PlacedCall.call) := by
  induction nodes using Node.forestInduction generalizing start state with
  | nil => exact ⟨[], state, Tour.nil start, Logs.nothing start state⟩
  | cons node rest below after =>
    -- the answer is given in the state the walk has come to, so it is fixed before the cases split
    obtain ⟨descend, state₁, hanswer⟩ : ∃ descend state₁,
        v.enter node (start.push node.label) state = (descend, state₁) := ⟨_, _, rfl⟩
    obtain ⟨inner, state₂, hinner, hlogs⟩ : ∃ inner state₂,
        Tour.Below (start.push node.label) node.children descend inner ∧
        Logs (if descend then v.visitNodes node.children else id)
          (if descend then v.logged.visitNodes node.children else id)
          (start.push node.label) state₁ state₂ (inner.map PlacedCall.call) := by
      cases descend with
      | true =>
        obtain ⟨inner, state₂, htour, hlogs⟩ := below (start.push node.label) state₁
        exact ⟨inner, state₂, .visited htour, hlogs⟩
      | false => exact ⟨[], state₁, .skipped, Logs.nothing _ state₁⟩
    have hfirst := Logs.around hanswer hlogs
    obtain ⟨behind, state₃, hbehind, hlast⟩ :=
      after start (v.exit node (start.push node.label) state₂)
    refine ⟨_, state₃, hinner.cons hbehind, ?_, fun log => ?_⟩
    · rw [visitNodes_cons, hfirst.run, hlast.run]
    · rw [visitNodes_cons, hfirst.twin, hlast.twin]
      simp [Tour.around, readdress, Function.comp_def]

end Visitor

/-- **The calls of any visitor, whatever it remembers and answers.** Its calls are a tour of the
nodes: each node with no ancestor that refused is entered once and left once, no other node is, and
both calls are given the starting place followed by the labels down to the node; nodes are entered
in document order, calls are properly nested, and the walk ends at the place it started from. -/
theorem visit_is_tour {σ : Type} (v : Visitor σ) (nodes : List Node) (start : NodePath)
    (state : σ) :
    (v.visitNodes nodes ⟨start, state⟩).path = start ∧
    ∃ calls, Tour start nodes calls ∧
      v.logged.visitNodes nodes ⟨start, (state, [])⟩ =
        ⟨start, ((v.visitNodes nodes ⟨start, state⟩).state, calls.map PlacedCall.call)⟩ := by
  obtain ⟨calls, state', htour, hlogs⟩ := v.exists_tour nodes start state
  rw [hlogs.run]
  exact ⟨rfl, calls, htour, hlogs.twin []⟩

/-- A visitor that refuses the second node it is shown, whichever that is: what is below that node
is not called for, and all else is, below the place the walk starts from. -/
theorem visit_is_tour_refusing_second :
    let nodes : List Node :=
      [.classDecl "A" [.mainFunction [.comment "below"], .comment "behind"]]
    let v : Visitor Nat := { enter := fun _ _ seen => (seen != 1, seen + 1) }
    ∃ calls, Tour ⟨["top"]⟩ nodes calls ∧
      v.logged.visitNodes nodes ⟨⟨["top"]⟩, (0, [])⟩ =
        ⟨⟨["top"]⟩, (3, calls.map PlacedCall.call)⟩ ∧
      calls.map PlacedCall.call =
        [.enter (.classDecl "A" [.mainFunction [.comment "below"], .comment "behind"])
          ⟨["top", "A"]⟩ true,
         .enter (.mainFunction [.comment "below"]) ⟨["top", "A", "main"]⟩ false,
         .exit (.mainFunction [.comment "below"]) ⟨["top", "A", "main"]⟩,
         .enter (.comment "behind") ⟨["top", "A", "comment"]⟩ true,
         .exit (.comment "behind") ⟨["top", "A", "comment"]⟩,
         .exit (.classDecl "A" [.mainFunction [.comment "below"], .comment "behind"])
          ⟨["top", "A"]⟩] := by
  intro nodes v
  obtain ⟨-, calls, htour, hlog⟩ := visit_is_tour v nodes ⟨["top"]⟩ 0
  exact ⟨calls, htour, hlog, (congrArg (fun walk => walk.state.2) hlog).symm⟩

end NetScribe
