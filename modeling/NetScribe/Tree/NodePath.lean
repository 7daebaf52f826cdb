/-!
# Where a node stands

A node's place in a program is the list of labels from the top down to it. Two places are the same
when their labels are, whatever the joined texts look like.
-/

namespace NetScribe

/-- The labels from the top of a program down to a node. -/
structure NodePath where
  labels : List String := []
  deriving DecidableEq, Inhabited, Repr

namespace NodePath

/-- The place above all nodes. -/
def top : NodePath := ⟨[]⟩

/-- One label further down. -/
def push (path : NodePath) (label : String) : NodePath :=
  ⟨path.labels ++ [label]⟩

/-- One label back up; the top stays. -/
def pop (path : NodePath) : NodePath :=
  ⟨path.labels.dropLast⟩

/-- Above all nodes. -/
def isTop (path : NodePath) : Bool := path.labels.isEmpty

/-- The labels with angle brackets between them. -/
def text (path : NodePath) : String :=
  " > ".intercalate path.labels

@[simp] theorem pop_push (path : NodePath) (label : String) : (path.push label).pop = path := by
  simp [push, pop]

@[simp] theorem labels_push (path : NodePath) (label : String) :
    (path.push label).labels = path.labels ++ [label] := rfl

@[simp] theorem isTop_push (path : NodePath) (label : String) :
    (path.push label).isTop = false := by
  simp [isTop]

end NodePath

end NetScribe
