/-!
# The page a program is written on

A page is a list of finished lines and the depth at which the next one starts. Four steps write on
it, each adding one line; opening and closing lines also move the depth. Closing at depth zero
stays there. The lemmas say what each step does to `lines` and `depth`, and nothing else of a page
can be seen.

A line can be indented only so far. `step` and `run` leave that aside; `step?` and `run?` stop at a
line that would have more blanks in front of it than a text can hold.
-/

namespace NetScribe.Java

/-- Finished lines, the depth of the next line and the number of blanks per depth. -/
structure Page where
  width : Nat := 4
  depth : Nat := 0
  rows : Array String := #[]
  deriving DecidableEq, Inhabited

namespace Page

/-- One step of writing. -/
inductive Step where
  /-- A line at the current depth. -/
  | line (text : String)
  /-- An empty line. -/
  | blank
  /-- A line that opens a block: what follows is one deeper. -/
  | opening (text : String)
  /-- A line that closes a block, written one shallower. -/
  | closing (text : String)
  deriving DecidableEq

namespace Step

/-- The depth at which a step taken at a depth writes its line; an empty line has no blanks. -/
def level (depth : Nat) : Step → Nat
  | line _ => depth
  | blank => 0
  | opening _ => depth
  | closing _ => depth - 1

/-- The depth behind a step taken at a depth. -/
def leaves (depth : Nat) : Step → Nat
  | opening _ => depth + 1
  | closing _ => depth - 1
  | _ => depth

end Step

/-- The depth of the deepest line: that of the lines so far, or of those that steps write from a
depth. -/
def reach (depth deepest : Nat) : List Step → Nat
  | [] => deepest
  | step :: rest => reach (step.leaves depth) (max deepest (step.level depth)) rest

/-- An empty page. -/
def empty (width : Nat) : Page := { width }

/-- The most blanks per depth, and the most in front of a line: a text has fewer than `2 ^ 63`
bytes. -/
def maxWidth : Nat := Nat.pow 2 63 - 1

/-- There are pages of a width, and lines down to a depth can be indented on them. -/
def fits (width depth : Nat) : Bool :=
  decide (width * max 1 depth ≤ maxWidth)

/-- An empty page, unless there is none of its width. -/
def empty? (width : Nat) : Option Page :=
  if width ≤ maxWidth then some (empty width) else none

/-- The finished lines. -/
def lines (page : Page) : List String := page.rows.toList

/-- The blanks in front of a line at a depth. -/
def indentation (width depth : Nat) : String :=
  String.ofList (List.replicate (width * depth) ' ')

/-- The page with one more row, written as given. -/
def addRow (page : Page) (row : String) : Page :=
  { page with rows := page.rows.push row }

/-- The page with one more line at its depth. -/
def addLine (page : Page) (text : String) : Page :=
  page.addRow (indentation page.width page.depth ++ text)

/-- The page after one step. -/
def step (page : Page) : Step → Page
  | .line text => page.addLine text
  | .blank => page.addRow ""
  | .opening text => { page.addLine text with depth := page.depth + 1 }
  | .closing text => { page with depth := page.depth - 1 }.addLine text

/-- The page after a list of steps. -/
def run (page : Page) (steps : List Step) : Page :=
  steps.foldl step page

/-- The page after one step, unless its line cannot be indented. -/
def step? (page : Page) (s : Step) : Option Page :=
  if page.width * s.level page.depth ≤ maxWidth then some (page.step s) else none

/-- The page after a list of steps, unless one of their lines cannot be indented. -/
def run? (page : Page) (steps : List Step) : Option Page :=
  steps.foldlM step? page

@[simp] theorem lines_empty (width : Nat) : (empty width).lines = [] := rfl

@[simp] theorem lines_addRow (page : Page) (row : String) :
    (page.addRow row).lines = page.lines ++ [row] := by
  simp [addRow, lines]

@[simp] theorem depth_addRow (page : Page) (row : String) :
    (page.addRow row).depth = page.depth := rfl

@[simp] theorem lines_step (page : Page) (s : Step) :
    (page.step s).lines = page.lines ++ [match s with
      | .line text => indentation page.width page.depth ++ text
      | .blank => ""
      | .opening text => indentation page.width page.depth ++ text
      | .closing text => indentation page.width (page.depth - 1) ++ text] := by
  cases s <;> simp [step, addLine, addRow, lines]

@[simp] theorem depth_step (page : Page) (s : Step) :
    (page.step s).depth = match s with
      | .line _ => page.depth
      | .blank => page.depth
      | .opening _ => page.depth + 1
      | .closing _ => page.depth - 1 := by
  cases s <;> rfl

@[simp] theorem width_step (page : Page) (s : Step) : (page.step s).width = page.width := by
  cases s <;> rfl

end Page

end NetScribe.Java
