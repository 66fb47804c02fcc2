import PathIgnore.Settings
import PathIgnore.Store
import PathIgnore.Trace
import PathIgnore.TreePath.Lineage

/-!
# Checkers

A checker decides whether paths are ignored. It climbs from a path to the root and stops at the
first directory with an opinion: a metadata directory, or one whose rule file has a rule that covers
the path. The last such rule of the file decides. A directory's own rule file says nothing about
that directory.
-/

namespace PathIgnore

/-- The outcome of asking a checker: the answer, what happened, and the store afterwards. There is
no store if rules are not kept. -/
structure Outcome (α : Type) where
  value : α
  log : Log
  store : Option Store

namespace Outcome

/-- The outcome after something else had happened. -/
def after {α : Type} (outcome : Outcome α) (log : Log) : Outcome α :=
  ⟨outcome.value, log ++ outcome.log, outcome.store⟩

/-- The outcome before something else happens. -/
def before {α : Type} (outcome : Outcome α) (log : Log) : Outcome α :=
  ⟨outcome.value, outcome.log ++ log, outcome.store⟩

/-- The outcome with another answer. -/
def map {α β : Type} (f : α → β) (outcome : Outcome α) : Outcome β :=
  ⟨f outcome.value, outcome.log, outcome.store⟩

end Outcome

/-! ## Loading rules -/

/-- Reads the rules of a directory. An absent rule file has no rules; one that cannot be read gives
nothing. -/
def loadRules (source : Source) (directory : TreePath) : Option Rules × Log :=
  match source.linesAt directory with
  | .ok (some lines) =>
    let parts := RuleLine.parseAll lines
    (some (parts.map Rule.ofRuleLine),
      .read directory (parts.flatMap Event.ofRuleLine ++
        [.ruleFileLoaded directory true parts.length]))
  | .ok none => (some [], .read directory [.ruleFileLoaded directory false 0])
  | .error error => (none, .read directory [.ruleFileUnreadable directory error])

/-- The rules of a directory, from the store if it keeps them. -/
def rulesAt (source : Source) (directory : TreePath) : Option Store → Outcome Rules
  | none =>
    let loaded := loadRules source directory
    ⟨loaded.1.getD [], loaded.2, none⟩
  | some store =>
    let fetched := store.getOrLoad directory fun _ => loadRules source directory
    ⟨fetched.rules, fetched.report.getD .empty, some fetched.store⟩

/-! ## The climb -/

/-- Climbs the directories of a lineage until one of them decides about the path. -/
def climb (source : Source) (isDirectory : Bool) :
    List Ancestor → Option Store → Outcome Decision
  | [], store => ⟨.undecided, .empty, store⟩
  | ancestor :: rest, store =>
    if ancestor.metadata then
      ⟨.byMetadata ancestor.path, .visited ancestor.path [] .ignored, store⟩
    else if ancestor.view.isEmpty then
      (climb source isDirectory rest store).after
        (.visited ancestor.path ancestor.view .noOpinion)
    else
      let found := rulesAt source ancestor.path store
      match found.value.lastMatch? ancestor.view isDirectory with
      | some rule =>
        ⟨.byRule ancestor.path rule,
          found.log ++ .visited ancestor.path ancestor.view rule.verdict, found.store⟩
      | none =>
        (climb source isDirectory rest found.store).after
          (found.log ++ .visited ancestor.path ancestor.view .noOpinion)

/-- Decides about a path. The root counts as a directory without being asked for. -/
def judge (source : Source) (metadataName : Text) (path : TreePath) (store : Option Store) :
    Outcome Decision :=
  let isDirectory := path.isRoot || source.isDirectory path
  let outcome := climb source isDirectory (path.lineage isDirectory metadataName) store
  outcome.before (.reported [.decided path outcome.value])

/-! ## Checkers -/

/-- A checker for the tree that stands at `root`. -/
structure Checker where
  root : NativePath
  settings : Settings
  /-- The rules that have been loaded, unless the settings say not to keep them. -/
  store : Option Store

namespace Checker

/-- A checker that has not been asked anything yet. -/
def new (root : NativePath) (settings : Settings) : Checker where
  root := root
  settings := settings
  store := if settings.keepRules then some .empty else none

/-- The place in the tree that a candidate names. An absolute candidate must lie below the root of
the tree; any other is taken from that root. -/
def locate (checker : Checker) (candidate : NativePath) : Except PathError TreePath :=
  if candidate.isAbsolute then
    match candidate.below? checker.root with
    | some path => TreePath.ofNative path
    | none => .error (.outsideRoot candidate.toText checker.root.toText)
  else TreePath.ofNative candidate

/-- The rules of a directory. -/
def rulesAt (checker : Checker) (source : Source) (directory : TreePath) : Outcome Rules :=
  PathIgnore.rulesAt source directory checker.store

/-- Decides about a place in the tree. -/
def resolve (checker : Checker) (source : Source) (path : TreePath) : Outcome Decision :=
  judge source checker.settings.metadataName path checker.store

/-- Decides about a candidate, if it names a place in the tree. -/
def explain (checker : Checker) (source : Source) (candidate : NativePath) :
    Outcome (Except PathError Decision) :=
  match checker.locate candidate with
  | .ok path => (checker.resolve source path).map .ok
  | .error error => ⟨.error error, .empty, checker.store⟩

/-- Whether a candidate is ignored. One that names no place in the tree is not. -/
def isIgnored (checker : Checker) (source : Source) (candidate : NativePath) : Outcome Bool :=
  let outcome := checker.explain source candidate
  match outcome.value with
  | .ok decision => outcome.map fun _ => decision.isIgnored
  | .error error => (outcome.map fun _ => false).before (.reported [.candidateRefused error])

/-- The checker after its store has changed. -/
def withStore (checker : Checker) (store : Option Store) : Checker :=
  { checker with store := store }

/-- The checker after everything that it keeps was dropped. -/
def clear (checker : Checker) : Checker :=
  checker.withStore (checker.store.map fun _ => .empty)

end Checker

end PathIgnore
