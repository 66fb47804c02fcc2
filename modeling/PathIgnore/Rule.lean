import PathIgnore.Pattern.Expression
import PathIgnore.Pattern.Search
import PathIgnore.Rule.Line
import PathIgnore.Verdict

/-!
# Rules

A rule is a line of a rule file, ready to be matched against paths relative to the directory of
that file. A rule covers a path if its pattern accepts the path or a directory that the path lies
in; unless the rule is anchored, the pattern may start at any component.
-/

namespace PathIgnore

/-- A rule, ready to be matched. -/
structure Rule where
  /-- The pattern without its escapes. -/
  text : Text
  negated : Bool
  anchored : Bool
  directoryOnly : Bool
  /-- The pattern to search for, or none if it is too large: then the rule covers no path. -/
  pattern : Option Pattern
  deriving DecidableEq, Repr

namespace Rule

/-- The pattern that a text writes, unless it is too large to search for. -/
def patternOf (source : Text) : Option Pattern :=
  let pattern := Pattern.ofText source
  if pattern.fits then some pattern else none

/-- The rule that the parts of a line make. -/
def ofRuleLine (line : RuleLine) : Rule where
  text := Text.unescape line.source
  negated := line.negated
  anchored := line.anchored
  directoryOnly := line.directoryOnly
  pattern := patternOf line.source

/-- The rule that a line holds, if it holds one. -/
def ofLine? (line : Text) : Option Rule :=
  (RuleLine.parse? line).map ofRuleLine

/-- What the rule says about the paths that it covers. -/
def verdict (rule : Rule) : Verdict :=
  if rule.negated then .notIgnored else .ignored

/-- The line that the rule stands for, with the anchor written out. -/
def display (rule : Rule) : Text :=
  (if rule.negated then ['!'] else []) ++ (if rule.anchored then ['/'] else []) ++ rule.text ++
    (if rule.directoryOnly then ['/'] else [])

/-! ## Matching -/

/-- Whether a match may end where `rest` remains of a path: at the end of a component, and at the
very end only if the path is a directory or the rule is not limited to directories. -/
def mayEnd (directoryOnly isDirectory : Bool) : Text → Bool
  | [] => !directoryOnly || isDirectory
  | c :: _ => c == '/'

/-- The places where a match may end, as `mayEnd` says. -/
def endPlaces (directoryOnly isDirectory : Bool) (index : Index) : Places :=
  index.before '/' ||| (!directoryOnly || isDirectory).toNat

/-- Whether the set holds a place just after a `/`. -/
def meetsAfterSlash (index : Index) (places : Places) : Bool :=
  places &&& index.before '/' >>> 1 != 0

/-- Whether the rule covers the path that an index was made of. -/
def coversIndexed (rule : Rule) (index : Index) (isDirectory : Bool) : Bool :=
  match rule.pattern with
  | none => false
  | some pattern =>
    let starts := pattern.pull index (endPlaces rule.directoryOnly isDirectory index)
    index.size != 0 &&
      (starts.testBit index.size || (!rule.anchored && meetsAfterSlash index starts))

/-- Whether the rule covers a path, given relative to the rule's directory. -/
def covers (rule : Rule) (path : Text) (isDirectory : Bool) : Bool :=
  rule.coversIndexed (.of path) isDirectory

/-! ## Equality -/

/-- The regular expression that the rule searches for. -/
def expression? (rule : Rule) : Option Text :=
  rule.pattern.map Pattern.expression

/-- Whether two rules have the same text, the same markers and the same expression. -/
def isSame (a b : Rule) : Bool :=
  a.text == b.text && a.negated == b.negated && a.anchored == b.anchored &&
    a.directoryOnly == b.directoryOnly && a.expression? == b.expression?

/-- Whether two lines hold the same rule, or no rule both of them. -/
def sameLine (a b : Text) : Bool :=
  match ofLine? a, ofLine? b with
  | some first, some second => first.isSame second
  | none, none => true
  | _, _ => false

@[simp] theorem isDecisive_verdict (rule : Rule) : rule.verdict.isDecisive = true := by
  unfold verdict
  split <;> rfl

theorem isSame_iff {a b : Rule} :
    a.isSame b = true ↔
      a.text = b.text ∧ a.negated = b.negated ∧ a.anchored = b.anchored ∧
        a.directoryOnly = b.directoryOnly ∧ a.expression? = b.expression? := by
  simp [isSame, and_assoc]

@[simp] theorem isSame_self (rule : Rule) : rule.isSame rule = true := by
  simp [isSame_iff]

@[simp] theorem covers_nil (rule : Rule) (isDirectory : Bool) :
    rule.covers [] isDirectory = false := by
  have h : (Index.of []).size = 0 := rfl
  simp only [covers, coversIndexed, h]
  split <;> simp

end Rule

end PathIgnore
