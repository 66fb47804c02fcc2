/-!
# Verdicts

What the rules say about a path.
-/

namespace PathIgnore

/-- What the rules say about a path. -/
inductive Verdict where
  /-- The path is ignored. -/
  | ignored
  /-- The path is not ignored, whatever rule files farther up say. -/
  | notIgnored
  /-- Nothing is said, and the rule files farther up are asked. -/
  | noOpinion
  deriving DecidableEq, Repr

namespace Verdict

/-- Whether the verdict ends the climb towards the root. -/
def isDecisive : Verdict → Bool
  | .noOpinion => false
  | _ => true

/-- Whether the path is ignored. -/
def isIgnored : Verdict → Bool
  | .ignored => true
  | _ => false

/-- The verdict in words. -/
def name : Verdict → String
  | .ignored => "ignored"
  | .notIgnored => "not-ignored"
  | .noOpinion => "no-opinion"

/-- The verdict that a name stands for. -/
def ofName? : String → Option Verdict
  | "ignored" => some .ignored
  | "not-ignored" => some .notIgnored
  | "no-opinion" => some .noOpinion
  | _ => none

@[simp] theorem isDecisive_eq_false_iff {v : Verdict} : v.isDecisive = false ↔ v = .noOpinion := by
  cases v <;> simp [isDecisive]

@[simp] theorem isIgnored_eq_true_iff {v : Verdict} : v.isIgnored = true ↔ v = .ignored := by
  cases v <;> simp [isIgnored]

theorem ofName?_name (v : Verdict) : ofName? v.name = some v := by
  cases v <;> rfl

end Verdict

end PathIgnore
