import NetScribe.Number.Binary64
import NetScribe.Path.Basic

/-!
# Models and training data

A model tells what it is and, if it can, the recipe a program rebuilds it from. A dataset is a list
of pairs that all have the widths of the first: `Dataset.ofPairs` is the only way to one, and it
names the first pair that does not fit.
-/

namespace NetScribe

/-- How a program rebuilds a model. -/
structure Recipe where
  method : String
  architecture : String
  deriving DecidableEq, Inhabited, Repr

/-- A model: its kind, and its recipe if it has one. -/
structure Model where
  kind : String := "MLMethod"
  recipe : Option Recipe := none
  deriving DecidableEq, Inhabited, Repr

/-- Why a model or a dataset cannot be had. -/
inductive LoadFault where
  /-- No model is known under this reference. -/
  | unknownModel (path : Path)
  /-- No dataset is known under this reference. -/
  | unknownDataset (path : Path)
  /-- The pair at `index` has other widths than the first. -/
  | ragged (index input ideal expectedInput expectedIdeal : Nat)
  /-- Any other reason, in words. -/
  | other (message : String)
  deriving DecidableEq, Inhabited, Repr

/-- The reason in words. -/
def LoadFault.message : LoadFault → String
  | .unknownModel path => "no model registered for " ++ path.text
  | .unknownDataset path => "no dataset registered for " ++ path.text
  | .ragged index input ideal expectedInput expectedIdeal =>
    s!"dataset rows must be rectangular: pair {index} has {input} inputs and {ideal} ideals, " ++
      s!"expected {expectedInput} and {expectedIdeal}"
  | .other message => message

/-- One training example. -/
structure Pair where
  input : List Binary64
  ideal : List Binary64
  deriving DecidableEq, Inhabited, Repr

namespace Pair

/-- Two examples have the same widths. -/
def SameShape (p q : Pair) : Prop :=
  p.input.length = q.input.length ∧ p.ideal.length = q.ideal.length

instance (p q : Pair) : Decidable (p.SameShape q) :=
  inferInstanceAs (Decidable (_ ∧ _))

end Pair

/-- Every example has the widths of the first. -/
def Rectangular (pairs : List Pair) : Prop :=
  ∀ first ∈ pairs.head?, ∀ pair ∈ pairs, pair.SameShape first

/-- Training examples of one shape. -/
structure Dataset where
  pairs : List Pair
  rectangular : Rectangular pairs
  deriving DecidableEq

namespace Dataset

instance : Inhabited Dataset := ⟨⟨[], by simp [Rectangular]⟩⟩

/-- The first pair, counting from `index`, that has another shape than `first`. -/
def misfit? (first : Pair) (index : Nat) : List Pair → Option LoadFault
  | [] => none
  | pair :: rest =>
    if pair.SameShape first then misfit? first (index + 1) rest
    else some (.ragged index pair.input.length pair.ideal.length
      first.input.length first.ideal.length)

/-- Why a list of pairs is no dataset. -/
def fault? : List Pair → Option LoadFault
  | [] => none
  | first :: rest => misfit? first 0 (first :: rest)

/-- No misfit is found exactly when all pairs have the shape of `first`. -/
theorem misfit?_eq_none_iff {first : Pair} {index : Nat} {pairs : List Pair} :
    misfit? first index pairs = none ↔ ∀ pair ∈ pairs, pair.SameShape first := by
  induction pairs generalizing index with
  | nil => simp [misfit?]
  | cons pair rest ih =>
    unfold misfit?
    split
    next h => simp [ih, h]
    next h => simp [h]

/-- A list of pairs has no fault exactly when it is rectangular. -/
theorem fault?_eq_none_iff {pairs : List Pair} : fault? pairs = none ↔ Rectangular pairs := by
  cases pairs with
  | nil => simp [fault?, Rectangular]
  | cons first rest => simp [fault?, Rectangular, misfit?_eq_none_iff]

/-- The dataset of a list of pairs, or the first pair that does not fit. -/
def ofPairs (pairs : List Pair) : Except LoadFault Dataset :=
  match h : fault? pairs with
  | some fault => .error fault
  | none => .ok ⟨pairs, fault?_eq_none_iff.mp h⟩

end Dataset

end NetScribe
