import NetScribe.Proofs.Script

/-!
# How deep a program goes

A line is indented by its depth, and only so many blanks can stand in front of one. Steps that are
taken one by one stop at the first line that would have more, and there is such a line exactly if
the deepest one would (`run?_eq`). So one depth decides whether a run can be written
(`writable_eq_isSome`), and that depth is bounded by the tree: a leaf is written as lines and blocks
without blocks inside them (`nested_leaf`), so a node writes no line deeper than the number of
labels that lead to it (`rises_ofNodes`, `reach_le`).
-/

namespace NetScribe.Java

namespace Page

theorem fits_iff {width depth : Nat} :
    fits width depth ↔ width ≤ maxWidth ∧ width * depth ≤ maxWidth := by
  rw [fits, decide_eq_true_iff, ← Nat.mul_max_mul_left, Nat.mul_one, Nat.max_le]

theorem le_reach (depth deepest : Nat) (steps : List Step) :
    deepest ≤ reach depth deepest steps := by
  induction steps generalizing depth deepest with
  | nil => exact Nat.le_refl deepest
  | cons s steps ih => exact Nat.le_trans (Nat.le_max_left _ _) (ih _ _)

/-- **The deepest line decides**: steps that can be taken one by one, each with its own line, are
those whose deepest line can be indented. -/
theorem run?_eq {page : Page} {deepest : Nat} (h : page.width * deepest ≤ maxWidth)
    (steps : List Step) :
    page.run? steps =
      if page.width * reach page.depth deepest steps ≤ maxWidth then some (page.run steps)
      else none := by
  induction steps generalizing page deepest with
  | nil => exact (if_pos h).symm
  | cons s steps ih =>
    rw [run?, List.foldlM_cons, step?, reach]
    by_cases hline : page.width * s.level page.depth ≤ maxWidth
    · have hdeepest : (page.step s).width * max deepest (s.level page.depth) ≤ maxWidth := by
        rw [width_step, ← Nat.mul_max_mul_left]
        exact Nat.max_le.mpr ⟨h, hline⟩
      rw [if_pos hline, ← depth_step_eq, ← width_step page s]
      exact ih hdeepest
    · -- the line that cannot be indented is one of those that the deepest is taken of
      have hreached : s.level page.depth ≤
          reach (s.leaves page.depth) (max deepest (s.level page.depth)) steps :=
        Nat.le_trans (Nat.le_max_right _ _) (le_reach _ _ _)
      rw [if_neg hline, if_neg fun hfits =>
        hline (Nat.le_trans (Nat.mul_le_mul_left page.width hreached) hfits)]
      rfl

/-! ### Blocks inside each other -/

/-- Steps made of lines and blocks, with so many blocks inside each other at most. -/
inductive Nested : Nat → List Step → Prop
  | nil (height : Nat) : Nested height []
  | blank (height : Nat) : Nested height [.blank]
  | line (height : Nat) (text : String) : Nested height [.line text]
  | append {height : Nat} {first second : List Step} :
    Nested height first → Nested height second → Nested height (first ++ second)
  | bracket {height : Nat} {inner : List Step} (opening closing : String) :
    Nested height inner → Nested (height + 1) ([.opening opening] ++ inner ++ [.closing closing])

namespace Nested

theorem lines (height : Nat) (texts : List String) : Nested height (texts.map .line) := by
  induction texts with
  | nil => exact .nil height
  | cons text texts ih => exact (Nested.line height text).append ih

/-- A function between an opening line and a brace, set off by an empty line. -/
theorem helper (height : Nat) (opening : String) (body : List String) :
    Nested (height + 1)
      ([.blank] ++ ([.opening opening] ++ body.map .line ++ [.closing "\x7d"])) :=
  (Nested.blank _).append ((lines height body).bracket opening "\x7d")

theorem rows (height : Nat) (name : String) (values : List (List Binary64)) :
    Nested (height + 1) (Block.rows name values) := by
  have htexts := lines height
    (values.map fun row => "\x7b " ++ numberList defaultPrecision row ++ " \x7d,")
  rw [List.map_map] at htexts
  exact htexts.bracket _ _

end Nested

/-- Steps that write no line deeper than so far below the depth they start at. -/
def Bounded (height : Nat) (steps : List Step) : Prop :=
  ∀ (page : Page) (deepest : Nat),
    reach page.depth deepest steps ≤ max deepest (page.depth + height)

/-- Bounded steps that end at the depth they start at. -/
structure Rises (height : Nat) (steps : List Step) : Prop where
  bounded : Bounded height steps
  back : ∀ page : Page, (page.run steps).depth = page.depth

variable {height : Nat} {first second inner : List Step}

theorem Rises.blank (height : Nat) : Rises height [.blank] where
  bounded _ _ := Nat.max_le.mpr ⟨Nat.le_max_left _ _, Nat.zero_le _⟩
  back _ := rfl

theorem Rises.append_bounded (hfirst : Rises height first) (hsecond : Bounded height second) :
    Bounded height (first ++ second) := by
  intro page deepest
  have hbefore := hfirst.bounded page deepest
  have hbehind := hsecond (page.run first) (reach page.depth deepest first)
  rw [hfirst.back] at hbehind
  rw [reach_append, hfirst.back]
  omega

theorem Rises.append (hfirst : Rises height first) (hsecond : Rises height second) :
    Rises height (first ++ second) where
  bounded := hfirst.append_bounded hsecond.bounded
  back page := by rw [run_append, hsecond.back, hfirst.back]

theorem Rises.nil (height : Nat) : Rises height [] where
  bounded _ _ := Nat.le_max_left _ _
  back _ := rfl

theorem Rises.line (height : Nat) (text : String) : Rises height [.line text] where
  bounded page deepest := by
    change max deepest page.depth ≤ _
    omega
  back _ := rfl

/-- What is opened may stay open. -/
theorem Bounded.under (opening : String) (h : Bounded height inner) :
    Bounded (height + 1) ([.opening opening] ++ inner) := by
  intro page deepest
  have hinner := h (page.step (.opening opening)) (max deepest page.depth)
  change reach (page.depth + 1) (max deepest page.depth) inner ≤
    max (max deepest page.depth) (page.depth + 1 + height) at hinner
  change reach (page.depth + 1) (max deepest page.depth) inner ≤ _
  omega

theorem Rises.bracket (opening closing : String) (h : Rises height inner) :
    Rises (height + 1) ([.opening opening] ++ inner ++ [.closing closing]) := by
  have hback : ∀ page : Page, (page.run ([.opening opening] ++ inner)).depth = page.depth + 1 := by
    intro page
    exact h.back (page.step (.opening opening))
  constructor
  · intro page deepest
    have hinner := h.bounded.under opening page deepest
    rw [reach_append, hback]
    change max (reach page.depth deepest ([.opening opening] ++ inner)) page.depth ≤ _
    omega
  · intro page
    rw [run_append]
    change (page.run ([.opening opening] ++ inner)).depth - 1 = page.depth
    rw [hback, Nat.add_sub_cancel]

/-- **Nested steps rise by as much as they are nested.** -/
theorem Nested.rises {steps : List Step} (h : Nested height steps) : Rises height steps := by
  induction h with
  | nil height => exact .nil height
  | blank height => exact .blank height
  | line height text => exact .line height text
  | append _ _ hfirst hsecond => exact hfirst.append hsecond
  | bracket opening closing _ hinner => exact hinner.bracket opening closing

end Page

/-! ## Trees -/

namespace Script

open Page

variable {s t : Script} {height : Nat} {loader : Loader} {mode : Mode}

/-- A script that goes no deeper than so far below its depth, and comes back unless it fails. -/
structure Rises (height : Nat) (s : Script) : Prop where
  bounded : Bounded height s.steps
  rises : s.failure = none → Page.Rises height s.steps

theorem Rises.of_steps (h : Page.Rises height s.steps) : Rises height s := ⟨h.bounded, fun _ => h⟩

theorem Rises.andThen (hs : Rises height s) (ht : Rises height t) :
    Rises height (s.andThen t) := by
  cases h : s.failure with
  | some failure =>
    rw [andThen_of_some h]
    exact hs
  | none =>
    rw [andThen_of_none h]
    exact ⟨(hs.rises h).append_bounded ht.bounded,
      fun hfailure => (hs.rises h).append (ht.rises hfailure)⟩

/-- **A container goes one deeper than its children.** -/
theorem Rises.container (opening : String) (hs : Rises height s) :
    Rises (height + 1) (container opening s) := by
  have hblank := Page.Rises.blank (height + 1)
  cases h : s.failure with
  | some failure =>
    rw [Script.container, andThen_of_some h, andThen_of_none rfl]
    exact ⟨hblank.append_bounded (hs.bounded.under opening),
      fun hnone => absurd (hnone.symm.trans h) (Option.some_ne_none failure).symm⟩
  | none =>
    rw [Script.container, andThen_of_none h, andThen_of_none rfl]
    exact .of_steps (hblank.append ((hs.rises h).bracket opening "\x7d"))

/-- **A leaf is written as lines and blocks**, one beside the other. -/
theorem nested_leaf (height : Nat) (place : NodePath) (node : Node) :
    Nested (height + 1) (leaf loader mode place node).steps := by
  have hblank := Nested.blank (height + 1)
  have hline := Nested.line (height + 1)
  cases node with
  | comment text => exact hline _
  | const name typeName value => exact hline _
  | call name result =>
    cases result with
    | none => exact hblank.append (hline _)
    | some binding => exact hblank.append (hline _)
  | array name values => exact (Nested.lines _ _).bracket _ _
  | network name model =>
    cases mode with
    | link => exact .helper _ _ [_, _]
    | embed =>
      simp only [leaf, networkBlock]
      cases loader.model model with
      | error cause => exact .nil _
      | ok found =>
        obtain ⟨kind, recipe⟩ := found
        cases recipe with
        | none => exact .nil _
        | some recipe => exact .helper _ _ [_, _, _, _]
  | embedTraining data =>
    cases mode with
    | link => exact .nil _
    | embed =>
      simp only [leaf, dataBlock]
      cases loader.dataset data with
      | error cause => exact .nil _
      | ok dataset => exact ((Nested.rows _ _ _).append hblank).append (.rows _ _ _)
  | loadTraining name data =>
    cases mode with
    | link => exact .helper _ _ [_, _]
    | embed => exact .helper _ _ [_, _]
  | _ => exact .nil _

/-- **A tree goes no deeper than its nodes have labels.** -/
theorem rises_ofNodes (above : NodePath) (nodes : List Node)
    (h : ∀ place ∈ Node.locatedAll above nodes,
      place.1.labels.length ≤ above.labels.length + height) :
    Rises height (ofNodes loader mode above nodes) := by
  induction nodes using Node.forestInduction generalizing above height with
  | nil => exact .of_steps (.nil height)
  | cons node rest below after =>
    rw [Node.locatedAll_cons] at h
    obtain ⟨hnode, hothers⟩ := List.forall_mem_cons.mp h
    obtain ⟨hbelow, hrest⟩ := List.forall_mem_append.mp hothers
    rw [NodePath.labels_push, List.length_append, List.length_singleton] at hnode
    -- the node itself has a label more than the place above it, so there is room below
    obtain ⟨lower, rfl⟩ : ∃ lower, height = lower + 1 := ⟨height - 1, by omega⟩
    refine Rises.andThen ?_ (after above hrest)
    cases hopening : opening? node with
    | none =>
      rw [ofNode_leaf hopening]
      exact .of_steps (nested_leaf lower _ node).rises
    | some opening =>
      rw [ofNode_container hopening]
      refine Rises.container opening (below (above.push node.label) fun place hplace => ?_)
      have hlabels := hbelow place hplace
      rw [NodePath.labels_push, List.length_append, List.length_singleton]
      omega

end Script

end NetScribe.Java

namespace NetScribe

open Java

variable {loader loader' : Loader} {mode : Mode} {options : Options} {program program' : Program}

/-! ## Runs that can be written -/

/-- **A run can be written** if there is a page for it and each of its steps can be taken there. -/
theorem writable_eq_isSome (loader : Loader) (options : Options) (program : Program) :
    options.writable loader program =
      ((Page.empty? options.width).bind fun page =>
        page.run? (Script.ofProgram loader options.mode program).steps).isSome := by
  rw [Bool.eq_iff_iff, Options.writable, Page.fits_iff, reach_eq, Page.empty?]
  generalize (Script.ofProgram loader options.mode program).steps = steps
  by_cases hpage : options.width ≤ Page.maxWidth
  · rw [if_pos hpage, Option.bind_some,
      Page.run?_eq (show (Page.empty options.width).width * 0 ≤ _ from Nat.zero_le _)]
    change _ ∧ options.width * Page.reach 0 0 steps ≤ _ ↔
      (if options.width * Page.reach 0 0 steps ≤ _ then _ else _ : Option Page).isSome
    split
    · next hreach => exact iff_of_true ⟨hpage, hreach⟩ rfl
    · next hreach => exact iff_of_false (fun hfits => hreach hfits.2) Bool.false_ne_true
  · rw [if_neg hpage]
    exact iff_of_false (fun hfits => hpage hfits.1) Bool.false_ne_true

theorem writable_congr
    (h : (Script.ofProgram loader options.mode program).steps =
      (Script.ofProgram loader' options.mode program').steps) :
    options.writable loader program = options.writable loader' program' := by
  rw [Options.writable, Options.writable, reach_eq, reach_eq, h]

/-- **A run goes no deeper than its program.** -/
theorem reach_le {height : Nat} (h : ∀ place ∈ program.located, place.1.labels.length ≤ height) :
    program.reach loader mode ≤ height := by
  have hrises : (Script.ofProgram loader mode program).Rises height := by
    refine Script.rises_ofNodes .top program.nodes fun place hplace => ?_
    have hlabels := h place hplace
    omega
  have hreach := hrises.bounded (Page.empty 0) 0
  rw [reach_eq]
  change Page.reach 0 0 _ ≤ max 0 (0 + height) at hreach
  omega

/-- A program can be written if there is room for its deepest node. -/
theorem writable_of_places (height : Nat)
    (h : ∀ place ∈ program.located, place.1.labels.length ≤ height)
    (hfits : Page.fits options.width height) : options.writable loader program := by
  have hreach : program.reach loader options.mode ≤ height := reach_le h
  refine decide_eq_true (Nat.le_trans (Nat.mul_le_mul_left _ ?_) (of_decide_eq_true hfits))
  omega

/-- Of two levels of `2 ^ 62` blanks only the first can be indented. -/
example :
    let loader : Loader := ⟨fun _ => .ok default, fun _ => .ok default⟩
    let options : Options := ⟨.link, 4611686018427387904⟩
    options.writable loader ⟨[.classDecl "A" [.comment "x"]]⟩ = true ∧
      options.writable loader ⟨[.classDecl "A" [.network "net" ⟨"net.eg"⟩]]⟩ = false := by
  decide

end NetScribe
