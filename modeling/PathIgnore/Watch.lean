import PathIgnore.TreePath
import PathIgnore.Verdict

/-!
# Watching a climb

Who watches a checker is told of every directory that it visits. A watch records the visits and
counts those that were decisive.
-/

namespace PathIgnore

/-- What has been seen of the visits. -/
structure Watch where
  /-- The visits since the record was last cleared. -/
  visits : List (TreePath × Verdict)
  /-- How many visits were decisive. Clearing the record leaves the count alone. -/
  decisive : Nat
  deriving DecidableEq, Repr

namespace Watch

/-- Nothing has been seen. -/
def empty : Watch := ⟨[], 0⟩

/-- The watch after one more visit. -/
def note (watch : Watch) (directory : TreePath) (verdict : Verdict) : Watch where
  visits := watch.visits ++ [(directory, verdict)]
  decisive := watch.decisive + if verdict.isDecisive then 1 else 0

/-- The watch after its record was cleared. -/
def clear (watch : Watch) : Watch :=
  { watch with visits := [] }

end Watch

end PathIgnore
