import NetScribe.Proofs.Levels
import NetScribe.Proofs.Texts

/-!
# Blocks are closed where they were opened

The emitter opens and closes blocks as it goes through a tree, and a failure in the middle leaves
open what is open. In terms of its script: the steps are covered, whatever happens, and without a
failure they close all they open (`Script.Level`). Leaves are level, a container closes what it
opens behind level children, and so is a tree (`level_ofNodes`).

An action is a function on pages and does not show its steps. `Takes` says that steps describe an
action on every page, and several lists of steps may: an opening line with a closing line behind it
writes what two plain lines write. Being covered does not depend on the choice (`Covered.congr`),
since a closing line at depth zero is the only one that comes out the same one depth further down.
-/

namespace NetScribe.Java

namespace Page

variable {steps first second inner other : List Step} {depth : Nat}

/-- Steps that keep above the depth of the page they start on. -/
structure StaysAbove (page : Page) (steps : List Step) : Prop where
  /-- No closing line is written at depth zero. -/
  closes_open : ∀ first text rest, steps = first ++ .closing text :: rest →
    0 < (page.run first).depth
  /-- At no time is the depth less than at the start. -/
  floor : ∀ first, first <+: steps → page.depth ≤ (page.run first).depth

/-! ## Covered steps in turn -/

namespace Covered

/-- A beginning of covered steps raises the depth of every page by what it leaves open. -/
theorem depth_run_prefix (h : Covered 0 steps) (hfirst : first <+: steps) (page : Page) :
    (page.run first).depth + closed first = page.depth + opened first :=
  ((h.of_prefix hfirst).mono (Nat.zero_le page.depth)).depth_run

/-- A closing line of covered steps has an open block in front of it. -/
theorem closed_lt_opened {text : String} {rest : List Step}
    (h : Covered 0 (first ++ .closing text :: rest)) : closed first < opened first := by
  have hclosed := h (first ++ [.closing text]) ⟨rest, by simp⟩
  rw [closed_append, opened_append, (closed_of_closes rfl).1, (closed_of_closes rfl).2] at hclosed
  omega

/-- Covered steps keep above every page. -/
theorem staysAbove (h : Covered 0 steps) (page : Page) : page.StaysAbove steps where
  closes_open first text rest heq := by
    have hdepth := h.depth_run_prefix ⟨_, heq.symm⟩ page
    have hopen := (heq ▸ h).closed_lt_opened
    omega
  floor first hfirst := by
    have hdepth := h.depth_run_prefix hfirst page
    have hclosed := h first hfirst
    omega

theorem append (hfirst : Covered depth first) (hsecond : Covered 0 second) :
    Covered depth (first ++ second) := by
  intro part hpart
  rcases List.prefix_or_prefix_of_prefix hpart (List.prefix_append first second) with
    hpart' | ⟨tail, rfl⟩
  · exact hfirst part hpart'
  · have hclosed := hfirst first (List.prefix_refl first)
    have htail := hsecond tail ((List.prefix_append_right_inj first).mp hpart)
    rw [closed_append, opened_append]
    omega

/-- Steps that close nothing are covered. -/
theorem of_closed (h : closed steps = 0) : Covered 0 steps := by
  intro first hfirst
  have hle : closed first ≤ closed steps := hfirst.sublist.countP_le
  omega

/-- **What stands between an opening and a closing line is covered by the opening line.** -/
theorem bracket (opening closing : String) (h : Covered 0 inner) :
    Covered 0 ([.opening opening] ++ inner ++ [.closing closing]) := by
  have hclosing : Covered (0 + 1) (inner ++ [.closing closing]) := by
    intro part hpart
    rcases List.prefix_concat_iff.mp hpart with rfl | hpart
    · have hinner := h inner (List.prefix_refl inner)
      rw [closed_append, opened_append, (closed_of_closes rfl).1, (closed_of_closes rfl).2]
      omega
    · exact (h.mono (Nat.zero_le 1)) part hpart
  rw [List.append_assoc]
  exact cons_iff.mpr ⟨fun hcloses => absurd hcloses Bool.false_ne_true, hclosing⟩

end Covered

/-! ## Steps that cannot be told apart -/

/-- Where steps are not covered, some closing line is the first to find no open block. -/
theorem exists_closing_of_not_covered (h : ¬ Covered depth steps) :
    ∃ first text rest, steps = first ++ .closing text :: rest ∧ Covered depth first ∧
      closed first = depth + opened first := by
  induction steps generalizing depth with
  | nil => exact absurd (Covered.of_closed rfl |>.mono (Nat.zero_le depth)) h
  | cons step rest ih =>
    by_cases hcloses : step.closes = true → 0 < depth
    · have hrest : ¬ Covered (step.leaves depth) rest := fun hrest =>
        h (Covered.cons_iff.mpr ⟨hcloses, hrest⟩)
      obtain ⟨first, text, last, rfl, hfirst, hcount⟩ := ih hrest
      have hleaves := leaves_add hcloses
      refine ⟨step :: first, text, last, rfl, Covered.cons_iff.mpr ⟨hcloses, hfirst⟩, ?_⟩
      rw [closed_cons, opened_cons]
      omega
    · obtain ⟨hstep, hzero⟩ := Classical.not_imp.mp hcloses
      obtain rfl : depth = 0 := by omega
      cases step with
      | closing text => exact ⟨[], text, rest, rfl, Covered.of_closed rfl, rfl⟩
      | _ => cases hstep

theorem width_run (page : Page) (steps : List Step) : (page.run steps).width = page.width := by
  induction steps generalizing page with
  | nil => rfl
  | cons step rest ih => rw [run_cons, ih, width_step]

/-- A run in the middle: what is behind the first steps is written from where they leave. -/
theorem lines_run_append (page : Page) (first second : List Step) :
    (page.run (first ++ second)).lines =
      (page.run first).lines ++ written page.width (page.run first).depth second := by
  rw [run_append, lines_run (page.run first), width_run]

/-- The rows of two runs that end the same are the same, one by one. -/
theorem row_eq_of_run_eq {page : Page} {step last : Step} {rest tail : List Step}
    (h : page.run (first ++ step :: rest) = page.run (second ++ last :: tail))
    (hlength : first.length = second.length) :
    step.row page.width (page.run first).depth = last.row page.width (page.run second).depth := by
  have hlines := congrArg lines h
  rw [lines_run_append, lines_run_append] at hlines
  have hfront : (page.run first).lines.length = (page.run second).lines.length := by
    rw [lines_run, lines_run, List.length_append, List.length_append, length_written,
      length_written, hlength]
  exact (List.cons.inj (List.append_inj hlines hfront).2).1

theorem length_moved {step : Step} (h : step ≠ .blank) (blanks : Nat) (row : String) :
    (step.moved blanks row).length = blanks + row.length := by
  cases step with
  | blank => exact absurd rfl h
  | _ => simp [Step.moved]

/-- Where two runs are the same from every page, and one of them closes a block it has not opened,
the other has a row there that is as long, from every depth. -/
theorem length_row_eq {step : Step} {text : String} {rest tail : List Step}
    (hrun : ∀ page : Page,
      page.run (first ++ step :: rest) = page.run (second ++ .closing text :: tail))
    (hlength : first.length = second.length) (hfirst : Covered 0 first) (hsecond : Covered 0 second)
    (hcount : closed second = opened second) (depth : Nat) :
    (step.row 1 (depth + (opened first - closed first))).length = depth - 1 + text.length := by
  obtain ⟨page, hwidth, rfl⟩ : ∃ page : Page, page.width = 1 ∧ page.depth = depth :=
    ⟨{ width := 1, depth }, rfl, rfl⟩
  have hrow := row_eq_of_run_eq (hrun page) hlength
  have hdepth : (page.run first).depth = page.depth + (opened first - closed first) := by
    have hclosed := hfirst first (List.prefix_refl first)
    have hcounted := hfirst.depth_run_prefix (List.prefix_refl first) page
    omega
  have hsame : (page.run second).depth = page.depth := by
    have hcounted := hsecond.depth_run_prefix (List.prefix_refl second) page
    omega
  rw [hwidth, hdepth, hsame, Step.row] at hrow
  simp [hrow, indentation]

/-- **Steps that do the same to every page are covered alike.** If the others were not covered, the
row of their first closing line without an open block would be as long from depth one as from depth
zero. A covered step that writes such a row is an empty line, and then the row is not longer from
depth two either. -/
theorem Covered.congr (hrun : ∀ page : Page, page.run steps = page.run other)
    (h : Covered 0 steps) : Covered 0 other := by
  by_contra hnot
  obtain ⟨front, text, tail, rfl, hfront, hcount⟩ := exists_closing_of_not_covered hnot
  have hlength : steps.length = (front ++ .closing text :: tail).length := by
    have hlines := congrArg (fun page : Page => page.lines.length) (hrun (empty 1))
    simp only [lines_run, List.length_append, length_written] at hlines
    simpa using hlines
  obtain ⟨first, step, rest, rfl, hfirst⟩ : ∃ first step rest,
      steps = first ++ step :: rest ∧ first.length = front.length := by
    have hlt : front.length < steps.length := by
      rw [hlength, List.length_append, List.length_cons]
      omega
    refine ⟨steps.take front.length, steps.get ⟨front.length, hlt⟩,
      steps.drop (front.length + 1), ?_, ?_⟩
    · rw [List.get_eq_getElem, ← List.drop_eq_getElem_cons hlt, List.take_append_drop]
    · rw [List.length_take]
      omega
  have hrows := length_row_eq hrun hfirst (h.of_prefix (List.prefix_append first _)) hfront
    (hcount.trans (Nat.zero_add _))
  by_cases hblank : step = .blank
  · subst hblank
    have htwo := hrows 2
    simp only [Step.row, String.length_empty] at htwo
    omega
  · have hcloses : step.closes = true → 0 < 0 + (opened first - closed first) := by
      intro hstep
      cases step with
      | closing t =>
        have hopen := h.closed_lt_opened
        omega
      | _ => cases hstep
    have hzero := hrows 0
    have hone := hrows 1
    rw [← Nat.zero_add (opened first - closed first), (row_add 1 1 hcloses).1,
      length_moved hblank] at hone
    omega

/-! ## Level steps -/

/-- Steps that close all blocks they open, and no others. -/
structure Level (steps : List Step) : Prop where
  covered : Covered 0 steps
  even : opened steps = closed steps

namespace Level

theorem flat (hopened : opened steps = 0) (hclosed : closed steps = 0) : Level steps :=
  ⟨Covered.of_closed hclosed, hopened.trans hclosed.symm⟩

theorem append (hfirst : Level first) (hsecond : Level second) : Level (first ++ second) := by
  refine ⟨hfirst.covered.append hsecond.covered, ?_⟩
  rw [opened_append, closed_append, hfirst.even, hsecond.even]

theorem bracket (opening closing : String) (h : Level inner) :
    Level ([.opening opening] ++ inner ++ [.closing closing]) := by
  refine ⟨h.covered.bracket opening closing, ?_⟩
  have hfront : opened [.opening opening] = 1 ∧ closed [.opening opening] = 0 := ⟨rfl, rfl⟩
  have hback : opened [.closing closing] = 0 ∧ closed [.closing closing] = 1 := ⟨rfl, rfl⟩
  have heven := h.even
  simp only [opened_append, closed_append]
  omega

end Level

/-- **Nested steps are level**, however deep they are nested. -/
theorem Nested.level {height : Nat} (h : Nested height steps) : Level steps := by
  induction h with
  | nil | blank | line => exact .flat rfl rfl
  | append _ _ hfirst hsecond => exact hfirst.append hsecond
  | bracket opening closing _ hinner => exact hinner.bracket opening closing

end Page

/-! ## Level scripts -/

namespace Script

open Page

variable {s t : Script} {loader : Loader} {mode : Mode}

/-- A script that closes no block it has not opened, and all it has opened unless it fails. -/
structure Level (s : Script) : Prop where
  covered : Covered 0 s.steps
  level : s.failure = none → Page.Level s.steps

theorem Level.of_steps (h : Page.Level s.steps) : Level s := ⟨h.covered, fun _ => h⟩

/-- Level scripts in turn; behind a failure there is nothing. -/
theorem Level.andThen (hs : Level s) (ht : Level t) : Level (s.andThen t) := by
  cases h : s.failure with
  | some failure =>
    rw [andThen_of_some h]
    exact hs
  | none =>
    rw [andThen_of_none h]
    exact ⟨hs.covered.append ht.covered, fun hfailure => (hs.level h).append (ht.level hfailure)⟩

/-- **A container around level children is level.** Where they fail, its block stays open. -/
theorem Level.container (opening : String) (hs : Level s) : Level (container opening s) := by
  have hblank : Page.Level [.blank] := .flat rfl rfl
  cases h : s.failure with
  | some failure =>
    rw [Script.container, andThen_of_some h, andThen_of_none rfl]
    have hopening : Covered 0 [.blank, .opening opening] := Covered.of_closed rfl
    exact ⟨hopening.append hs.covered, fun hnone => absurd (hnone.symm.trans h) (by simp)⟩
  | none =>
    rw [Script.container, andThen_of_none h, andThen_of_none rfl]
    exact .of_steps (hblank.append ((hs.level h).bracket opening "\x7d"))

/-- A node is level if the nodes below it are. -/
theorem level_ofNode {node : Node}
    (below : ∀ above, Level (ofNodes loader mode above node.children)) (above : NodePath) :
    Level (ofNode loader mode above node) := by
  cases h : opening? node with
  | none =>
    rw [ofNode_leaf h]
    exact .of_steps (nested_leaf 0 _ node).level
  | some opening =>
    rw [ofNode_container h]
    exact (below _).container opening

/-- **Every tree is level**, wherever it fails. -/
theorem level_ofNodes (above : NodePath) (nodes : List Node) :
    Level (ofNodes loader mode above nodes) := by
  induction nodes using Node.forestInduction generalizing above with
  | nil => exact .of_steps (.flat rfl rfl)
  | cons node rest below after => exact (level_ofNode below above).andThen (after above)

end Script

/-! ## The emitter after an action -/

namespace Emit

variable {x : Emit Unit} {script : NodePath → Script}

/-- The emitter behind an action, whether or not it failed. -/
def after (x : Emit Unit) (e : Emitter) : Emitter :=
  match x e with
  | .ok _ e => e
  | .error _ e => e

/-- On every page the action takes these steps, which may depend on its place. -/
def Takes (x : Emit Unit) (steps : NodePath → List Page.Step) : Prop :=
  ∀ e, (after x e).page = e.page.run (steps e.path)

theorem Plays.after_eq (h : Plays x script) (e : Emitter) :
    after x e = (script e.path).advance e := by
  rw [after, h e, Script.play]
  cases (script e.path).failure with
  | none => rfl
  | some failure => rfl

theorem Plays.takes (h : Plays x script) : Takes x fun place => (script place).steps := by
  intro e
  rw [h.after_eq]
  rfl

/-- Whatever steps an action takes, they do the same to every page. -/
theorem Takes.run_eq {steps other : NodePath → List Page.Step} (h : Takes x steps)
    (hother : Takes x other) (place : NodePath) (page : Page) :
    page.run (steps place) = page.run (other place) :=
  (h { page, path := place }).symm.trans (hother { page, path := place })

end Emit

/-- What was asked for stays in front. -/
theorem Imports.prefix_addAll (imports : Imports) (entries : List String) :
    imports.entries <+: (imports.addAll entries).entries := by
  induction entries generalizing imports with
  | nil => exact List.prefix_refl _
  | cons entry rest ih =>
    refine List.IsPrefix.trans ?_ (ih (imports.add entry))
    rw [add]
    split
    · exact List.prefix_refl _
    · exact List.prefix_append _ _

namespace Emit

open Page

variable {loader : Loader} {x : Emit Unit} {script : NodePath → Script}

/-- What an action with a level script leaves as it was, from every state. -/
theorem Plays.keeps (h : Plays x script) (hlevel : ∀ place, (script place).Level) (e : Emitter) :
    (after x e).path = e.path ∧ e.page.lines <+: (after x e).page.lines ∧
      e.imports.entries <+: (after x e).imports.entries ∧
      ∀ e', x e = .ok () e' → e'.page.depth = e.page.depth := by
  rw [h.after_eq]
  refine ⟨rfl, ?_, e.imports.prefix_addAll _, fun e' hok => ?_⟩
  · change e.page.lines <+: (e.page.run (script e.path).steps).lines
    rw [lines_run]
    exact List.prefix_append _ _
  · rw [h e, Script.play] at hok
    cases hfailure : (script e.path).failure with
    | some failure =>
      rw [hfailure] at hok
      cases hok
    | none =>
      rw [hfailure] at hok
      cases hok
      have heven := ((hlevel e.path).level hfailure).even
      have hdepth := (hlevel e.path).covered.depth_run_prefix (List.prefix_refl _) e.page
      change (e.page.run (script e.path).steps).depth = e.page.depth
      omega

/-- The script of a node, at every place, is level. -/
theorem level_node (loader : Loader) (mode : Mode) (node : Node) (place : NodePath) :
    (Script.ofNode loader mode place node).Level :=
  Script.level_ofNode (fun above => Script.level_ofNodes above node.children) place

/-- A source is the page of an emitter that went through the whole tree from an empty page, and
came back to its depth. -/
theorem exists_emitter_of_writes {options : Options} {program : Program} {source : Source}
    (h : Writes loader options program source) :
    ∃ e, nodes loader options.mode program.nodes { page := .empty options.width } = .ok () e ∧
      source.body = e.page.lines ∧ e.page.depth = 0 := by
  obtain ⟨written, hwritten, -, hbody⟩ := h.exists_generate
  rw [generate] at hwritten
  cases hrun : nodes loader options.mode program.nodes { page := .empty options.width } with
  | error failure e =>
    rw [hrun] at hwritten
    cases hwritten
  | ok result e =>
    rw [hrun] at hwritten
    cases hwritten
    have hkeeps := (plays_nodes loader options.mode program.nodes).keeps
      (fun place => Script.level_ofNodes place program.nodes) { page := .empty options.width }
    exact ⟨e, rfl, hbody, hkeeps.2.2.2 e hrun⟩

/-- **The emitter stays level**, from every state and at every node. It writes by the steps of its
script; and by whichever steps its doing is described, no closing line is written at depth zero, and
the depth is never less than at the start. Whether or not it fails, the place is the one it started
at, and what was written and imported stays in front; if it succeeds, the depth is the same. So a
source is written by an emitter that ends at depth zero. -/
theorem node_stays_level (loader : Loader) (mode : Mode) (node : Node) :
    Takes (Emit.node loader mode node)
        (fun place => (Script.ofNode loader mode place node).steps) ∧
      (∀ steps, Takes (Emit.node loader mode node) steps →
        ∀ e : Emitter, e.page.StaysAbove (steps e.path)) ∧
      (∀ e : Emitter,
        (after (Emit.node loader mode node) e).path = e.path ∧
        e.page.lines <+: (after (Emit.node loader mode node) e).page.lines ∧
        e.imports.entries <+: (after (Emit.node loader mode node) e).imports.entries ∧
        ∀ e', Emit.node loader mode node e = .ok () e' → e'.page.depth = e.page.depth) ∧
      ∀ options program source, Writes loader options program source →
        ∃ e, nodes loader options.mode program.nodes { page := .empty options.width } = .ok () e ∧
          source.body = e.page.lines ∧ e.page.depth = 0 := by
  have hplays := plays_node loader mode (plays_nodes loader mode node.children)
  refine ⟨hplays.takes, fun steps hsteps e => ?_, hplays.keeps (level_node loader mode node),
    fun options program source => exists_emitter_of_writes⟩
  have hcovered := (level_node loader mode node e.path).covered
  exact (hcovered.congr (hplays.takes.run_eq hsteps e.path)).staysAbove e.page

/-- A class with a network, three deep. Embedding it fails with the class left open, and the place
is as before; linking it comes back to the depth. -/
theorem node_stays_level_refused :
    let loader : Loader := ⟨fun path => .error (.unknownModel path), fun _ => .ok default⟩
    let node : Node := .classDecl "A" [.network "net" ⟨"net.eg"⟩]
    let e : Emitter :=
      { page := { width := 2, depth := 3, rows := #["a"] }, path := ⟨["Top"]⟩ }
    (∃ failure e', Emit.node loader .embed node e = .error failure e' ∧ e'.page.depth = 4) ∧
      (after (Emit.node loader .embed node) e).path = ⟨["Top"]⟩ ∧
      Takes (Emit.node loader .embed node) (fun _ => [.blank, .opening "public class A \x7b"]) ∧
      e.page.StaysAbove [.blank, .opening "public class A \x7b"] ∧
      (∃ e', Emit.node loader .link node e = .ok () e' ∧ e'.page.depth = 3) ∧
      ∃ source e', Writes loader ⟨.link, 2⟩ ⟨[node]⟩ source ∧
        nodes loader .link [node] { page := .empty 2 } = .ok () e' ∧
        source.body = e'.page.lines ∧ e'.page.depth = 0 := by
  intro loader node e
  obtain ⟨htakes, habove, hkeeps, -⟩ := node_stays_level loader .embed node
  obtain ⟨-, -, hlinked, hwrites⟩ := node_stays_level loader .link node
  have hwritten : Writes loader ⟨.link, 2⟩ ⟨[node]⟩ _ := ⟨_, Or.inl rfl, rfl⟩
  obtain ⟨e', hrun, hbody, hdepth⟩ := hwrites _ _ _ hwritten
  exact ⟨⟨_, _, rfl, rfl⟩, (hkeeps e).1, htakes, habove _ htakes e,
    ⟨_, rfl, (hlinked e).2.2.2 _ rfl⟩, _, e', hwritten, hrun, hbody, hdepth⟩

end Emit

end NetScribe.Java
