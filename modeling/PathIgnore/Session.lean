import PathIgnore.Checker
import PathIgnore.MemoryTree
import PathIgnore.WorkTree

/-!
# Sessions

A session is a checker in use on a tree that may change between two queries. The checker does not
learn of changes: rules that it keeps stay as they were loaded.
-/

namespace PathIgnore

/-- What a checker can be asked. -/
inductive Query where
  /-- Whether a candidate is ignored. -/
  | isIgnored (candidate : NativePath)
  /-- What is decided about a candidate. -/
  | explain (candidate : NativePath)
  /-- What is decided about a place in the tree. -/
  | resolve (path : TreePath)
  /-- The place in the tree that a candidate names. -/
  | locate (candidate : NativePath)
  /-- The rules of a directory. -/
  | rulesAt (directory : TreePath)
  /-- The rules of a directory, if they are kept. -/
  | keptRules (directory : TreePath)
  /-- The lines of the rule file of a directory, asked of the tree itself. -/
  | linesAt (directory : TreePath)
  /-- Whether a path is a directory. -/
  | isDirectory (path : TreePath)
  /-- Drops everything that is kept. -/
  | clear
  deriving DecidableEq, Repr

/-- What a checker answers. -/
inductive Answer where
  | done
  | flag (value : Bool)
  | path (path : TreePath)
  | decision (decision : Decision)
  | rules (rules : Option Rules)
  | lines (lines : Option (List Text))
  | refused (error : PathError)
  | unreadable (error : ReadError)

/-- Answers a query. -/
def Checker.answer (checker : Checker) (source : Source) : Query → Outcome Answer
  | .isIgnored candidate => (checker.isIgnored source candidate).map .flag
  | .explain candidate => (checker.explain source candidate).map fun
    | .ok decision => .decision decision
    | .error error => .refused error
  | .resolve path => (checker.resolve source path).map .decision
  | .locate candidate =>
    ⟨match checker.locate candidate with
      | .ok path => .path path
      | .error error => .refused error, .empty, checker.store⟩
  | .rulesAt directory => (checker.rulesAt source directory).map fun rules => .rules (some rules)
  | .keptRules directory =>
    ⟨.rules (checker.store.bind (·.get? directory)), .empty, checker.store⟩
  | .linesAt directory =>
    ⟨match source.linesAt directory with
      | .ok lines => .lines lines
      | .error error => .unreadable error, .read directory [], checker.store⟩
  | .isDirectory path => ⟨.flag (source.isDirectory path), .empty, checker.store⟩
  | .clear => ⟨.done, .empty, checker.clear.store⟩

/-- A checker in use on a tree. -/
structure Session (Tree : Type) where
  tree : Tree
  checker : Checker

namespace Session

/-- The session after a query, and what came of it. The tree answers through `source`. -/
def ask {Tree : Type} (session : Session Tree) (source : Tree → Source) (query : Query) :
    Answer × Log × Session Tree :=
  let outcome := session.checker.answer (source session.tree) query
  (outcome.value, outcome.log, { session with checker := session.checker.withStore outcome.store })

/-- A step of a session on a tree in memory. -/
inductive MemoryStep where
  | change (change : MemoryTree.Change)
  | query (query : Query)
  /-- Whether a path is a file. -/
  | isFile (path : TreePath)
  deriving DecidableEq, Repr

/-- The session after a step, and what came of it. -/
def stepInMemory (session : Session MemoryTree) :
    MemoryStep → Except PathError Answer × Log × Session MemoryTree
  | .change change =>
    match session.tree.apply change with
    | .ok tree => (.ok .done, .empty, { session with tree := tree })
    | .error error => (.error error, .empty, session)
  | .query query =>
    let (answer, log, session) := session.ask MemoryTree.source query
    (.ok answer, log, session)
  | .isFile path => (.ok (.flag (session.tree.isFile path)), .empty, session)

/-- The results of the steps of a session, each with what happened in it, and the session after
them. -/
def runInMemory (session : Session MemoryTree) :
    List MemoryStep → List (Except PathError Answer × Log) × Session MemoryTree
  | [] => ([], session)
  | step :: rest =>
    let (result, log, session) := session.stepInMemory step
    let (results, session) := runInMemory session rest
    ((result, log) :: results, session)

end Session

end PathIgnore
