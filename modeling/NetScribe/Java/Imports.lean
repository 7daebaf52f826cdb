/-!
# Imports of the written program

The rules that write a program ask for imports as they go. An import is kept once, where it was
first asked for, and is never taken back.
-/

namespace NetScribe.Java

/-- The imports asked for so far, in the order of their first request. -/
structure Imports where
  entries : List String := []
  deriving DecidableEq, Inhabited

namespace Imports

/-- Ask for an import. -/
def add (imports : Imports) (entry : String) : Imports :=
  if entry ∈ imports.entries then imports else ⟨imports.entries ++ [entry]⟩

/-- Ask for several imports in turn. -/
def addAll (imports : Imports) (entries : List String) : Imports :=
  entries.foldl add imports

/-- How many imports there are. -/
def size (imports : Imports) : Nat := imports.entries.length

/-- Nothing was asked for. -/
def isEmpty (imports : Imports) : Bool := imports.entries.isEmpty

/-- No import is listed twice. -/
theorem nodup_add {imports : Imports} (entry : String) (h : imports.entries.Nodup) :
    (imports.add entry).entries.Nodup := by
  by_cases held : entry ∈ imports.entries
  · rw [add, if_pos held]
    exact h
  · rw [add, if_neg held, List.nodup_append]
    refine ⟨h, by simp, fun a ha b hb same => ?_⟩
    rw [List.mem_singleton] at hb
    exact held (hb ▸ same ▸ ha)

end Imports

/-- One line per import, and one empty line behind them if there is any. -/
def importLines : List String → List String
  | [] => []
  | entries => entries.map (fun entry => "import " ++ entry ++ ";") ++ [""]

end NetScribe.Java
