import PathIgnore.Rules
import PathIgnore.Source
import PathIgnore.Text.Quoted

/-!
# Traces

What happens while a path is checked: the directories whose rule files are read, the directories
that are visited, and the events that are reported, each in the order in which it happens.
-/

namespace PathIgnore

/-- What was decided about a path, and by what. -/
structure Decision where
  verdict : Verdict
  /-- The directory that decided. -/
  directory : Option TreePath
  /-- The rule that decided. A metadata directory decides without a rule. -/
  rule : Option Rule
  deriving DecidableEq, Repr

namespace Decision

/-- No directory decided. -/
def undecided : Decision := ⟨.noOpinion, none, none⟩

/-- The metadata directory decided. -/
def byMetadata (directory : TreePath) : Decision := ⟨.ignored, some directory, none⟩

/-- A rule of the directory's rule file decided. -/
def byRule (directory : TreePath) (rule : Rule) : Decision :=
  ⟨rule.verdict, some directory, some rule⟩

/-- Whether the path is ignored. -/
def isIgnored (decision : Decision) : Bool :=
  decision.verdict.isIgnored

end Decision

/-! ## Events -/

/-- Something that is reported. -/
inductive Event where
  /-- The pattern of a rule is too large to search for. -/
  | ruleRejected (source : Text)
  /-- A line was read as a rule. -/
  | ruleCompiled (rule : Rule)
  /-- A rule file was looked for without an error. -/
  | ruleFileLoaded (directory : TreePath) (present : Bool) (count : Nat)
  /-- A rule file could not be read. -/
  | ruleFileUnreadable (directory : TreePath) (error : ReadError)
  /-- A directory was visited, and asked about the path seen from it unless it is a metadata
  directory. -/
  | directoryVisited (directory : TreePath) (view : Text) (verdict : Verdict)
  /-- A path was decided about. -/
  | decided (path : TreePath) (decision : Decision)
  /-- A candidate names no place in the tree. -/
  | candidateRefused (error : PathError)
  deriving DecidableEq, Repr

/-- How much an event matters. -/
inductive Event.Level where
  | trace
  | debug
  | warn
  deriving DecidableEq, Repr

namespace Event

/-- The name of a level. -/
def Level.name : Level → String
  | .trace => "TRACE"
  | .debug => "DEBUG"
  | .warn => "WARN"

/-- How much the event matters. -/
def level : Event → Level
  | .ruleRejected _ | .ruleFileUnreadable _ _ | .candidateRefused _ => .warn
  | .ruleFileLoaded _ _ _ | .decided _ _ => .debug
  | .ruleCompiled _ | .directoryVisited _ _ _ => .trace

/-- The name of the event. -/
def name : Event → String
  | .ruleRejected _ => "rule_rejected"
  | .ruleCompiled _ => "rule_compiled"
  | .ruleFileLoaded _ _ _ => "rule_file_loaded"
  | .ruleFileUnreadable _ _ => "rule_file_unreadable"
  | .directoryVisited _ _ _ => "directory_visit"
  | .decided _ _ => "ignore_decision"
  | .candidateRefused _ => "invalid_candidate"

/-- A truth value in words. -/
def flagText (flag : Bool) : Text :=
  if flag then "true".toList else "false".toList

/-- Why a pattern is rejected, in words. -/
def rejection : Text :=
  "Compiled regex exceeds size limit of ".toList ++ Nat.toDigits 10 Pattern.sizeLimit ++
    " bytes.".toList

/-- The fields of the event, each a name and a value. -/
def fields : Event → List (String × Text)
  | .ruleRejected source => [("glob", source), ("reason", rejection)]
  | .ruleCompiled rule =>
    [("pattern", rule.text), ("negated", flagText rule.negated),
      ("anchored", flagText rule.anchored), ("directory_only", flagText rule.directoryOnly)]
  | .ruleFileLoaded directory present count =>
    [("directory", directory.text), ("present", flagText present),
      ("rule_count", Nat.toDigits 10 count)]
  | .ruleFileUnreadable directory error =>
    [("directory", directory.text), ("error", error.message)]
  | .directoryVisited directory view verdict =>
    [("directory", directory.text), ("relative_path", view), ("verdict", verdict.name.toList)]
  | .decided path decision =>
    [("path", path.text), ("ignored", flagText decision.isIgnored),
      ("directory", Text.Quoted.encodeOption (decision.directory.map TreePath.text)),
      ("rule", Text.Quoted.encodeOption (decision.rule.map Rule.display))]
  | .candidateRefused error => [("error", error.message)]

/-- The events of reading a line as a rule. -/
def ofRuleLine (line : RuleLine) : List Event :=
  let rule := Rule.ofRuleLine line
  (if rule.pattern.isNone then [.ruleRejected line.source] else []) ++ [.ruleCompiled rule]

end Event

/-! ## Logs -/

/-- What happened, in three lists. -/
structure Log where
  /-- The directories whose rule files were read. -/
  asked : List TreePath
  /-- The directories that were visited, each with what it said. -/
  visits : List (TreePath × Verdict)
  events : List Event
  deriving DecidableEq, Repr

namespace Log

/-- Nothing happened. -/
def empty : Log := ⟨[], [], []⟩

/-- One thing after the other. -/
instance : Append Log where
  append a b := ⟨a.asked ++ b.asked, a.visits ++ b.visits, a.events ++ b.events⟩

/-- Only events were reported. -/
def reported (events : List Event) : Log := ⟨[], [], events⟩

/-- The rule file of a directory was read, and this was reported. -/
def read (directory : TreePath) (events : List Event) : Log := ⟨[directory], [], events⟩

/-- A directory was visited, and asked about the path seen from it unless it is a metadata
directory. -/
def visited (directory : TreePath) (view : Text) (verdict : Verdict) : Log :=
  ⟨[], [(directory, verdict)], [.directoryVisited directory view verdict]⟩

@[simp] theorem asked_append (a b : Log) : (a ++ b).asked = a.asked ++ b.asked := rfl

@[simp] theorem visits_append (a b : Log) : (a ++ b).visits = a.visits ++ b.visits := rfl

@[simp] theorem events_append (a b : Log) : (a ++ b).events = a.events ++ b.events := rfl

@[simp] theorem append_empty (log : Log) : log ++ empty = log := by
  obtain ⟨asked, visits, events⟩ := log
  change (⟨asked ++ [], visits ++ [], events ++ []⟩ : Log) = _
  simp only [List.append_nil]

end Log

end PathIgnore
