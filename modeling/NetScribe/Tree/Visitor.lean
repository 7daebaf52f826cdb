import NetScribe.Tree.Node

/-!
# Visiting a tree

A visitor is called on a node before and after the nodes below it, with the node's place. Its
verdict on the way in decides whether the nodes below are visited at all; the call on the way out
comes in either case. The walk keeps the place itself, going down by a label and back up.
-/

namespace NetScribe

/-- What is done at each node, over a state of any kind. -/
structure Visitor (σ : Type) where
  /-- Before the nodes below; they are visited only if this says so. -/
  enter : Node → NodePath → σ → Bool × σ := fun _ _ s => (true, s)
  /-- After the nodes below. -/
  exit : Node → NodePath → σ → σ := fun _ _ s => s

/-- A walk under way: the visitor's state and the place reached. -/
structure Walk (σ : Type) where
  path : NodePath := .top
  state : σ

namespace Visitor

variable {σ : Type}

/-- Visit one node, given how the nodes below it are visited. -/
def around (v : Visitor σ) (node : Node) (below : Walk σ → Walk σ) (walk : Walk σ) : Walk σ :=
  let path := walk.path.push node.label
  let (descend, state) := v.enter node path walk.state
  let walk := if descend then below ⟨path, state⟩ else ⟨path, state⟩
  ⟨walk.path.pop, v.exit node walk.path walk.state⟩

mutual

/-- Visit a node and, if the visitor wants to, the nodes below it. -/
def visitNode (v : Visitor σ) (node : Node) : Walk σ → Walk σ :=
  match node with
  | .classDecl name children => v.around (.classDecl name children) (v.visitNodes children)
  | .mainFunction children => v.around (.mainFunction children) (v.visitNodes children)
  | .staticFunction name children =>
    v.around (.staticFunction name children) (v.visitNodes children)
  | leaf => v.around leaf id

/-- Visit nodes in turn. -/
def visitNodes (v : Visitor σ) : List Node → Walk σ → Walk σ
  | [], walk => walk
  | node :: rest, walk => v.visitNodes rest (v.visitNode node walk)

end

/-- Visit a whole program. -/
def visit (v : Visitor σ) (program : Program) (state : σ) : σ :=
  (v.visitNodes program.nodes { state }).state

end Visitor

/-! ## Tracing -/

/-- One call of a visitor. -/
inductive VisitEvent where
  | enter (path : NodePath)
  | exit (path : NodePath)
  deriving DecidableEq, Repr

/-- The visitor that writes down its calls and does not look below nodes with certain labels. -/
def Visitor.trace (skipped : List String) : Visitor (List VisitEvent) where
  enter node path events := (!skipped.contains node.label, events ++ [.enter path])
  exit _ path events := events ++ [.exit path]

end NetScribe
