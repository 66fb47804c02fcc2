import PathIgnore.Rule

/-!
# The rules of one file

The rules of a rule file in file order. The last rule that covers a path decides about it.
-/

namespace PathIgnore

/-- The rules of one rule file, in file order. -/
abbrev Rules := List Rule

namespace Rules

/-- The rules that the lines of a file hold. -/
def ofLines (lines : List Text) : Rules :=
  (RuleLine.parseAll lines).map Rule.ofRuleLine

/-- The rules that the text of a file holds. -/
def ofText (text : Text) : Rules :=
  ofLines text.lines

/-- The last rule that covers the path. The rules share one index of the path. -/
def lastMatch? (rules : Rules) (path : Text) (isDirectory : Bool) : Option Rule :=
  let index := Index.of path
  rules.reverse.find? (·.coversIndexed index isDirectory)

/-- The position of the last rule that covers the path. -/
def lastMatchIndex? (rules : Rules) (path : Text) (isDirectory : Bool) : Option Nat :=
  let index := Index.of path
  (rules.reverse.findIdx? (·.coversIndexed index isDirectory)).map (rules.length - 1 - ·)

/-- What the rules say about the path. -/
def verdict (rules : Rules) (path : Text) (isDirectory : Bool) : Verdict :=
  ((rules.lastMatch? path isDirectory).map Rule.verdict).getD .noOpinion

/-- Whether two files hold the same rules in the same order. -/
def isSame : Rules → Rules → Bool
  | [], [] => true
  | a :: first, b :: second => a.isSame b && isSame first second
  | _, _ => false

theorem lastMatch?_eq_find? (rules : Rules) (path : Text) (isDirectory : Bool) :
    rules.lastMatch? path isDirectory = rules.reverse.find? (·.covers path isDirectory) := rfl

@[simp] theorem lastMatch?_nil (path : Text) (isDirectory : Bool) :
    lastMatch? [] path isDirectory = none := rfl

@[simp] theorem lastMatch?_append (first second : Rules) (path : Text) (isDirectory : Bool) :
    lastMatch? (first ++ second) path isDirectory =
      (lastMatch? second path isDirectory).or (lastMatch? first path isDirectory) := by
  simp [lastMatch?, List.find?_append]

end Rules

end PathIgnore
