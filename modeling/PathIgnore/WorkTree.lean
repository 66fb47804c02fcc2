import PathIgnore.Disk

/-!
# Work trees

A tree that stands on a disk. Its rule files are the files of one name; their data is decoded as
UTF-8, and what is not UTF-8 becomes replacement characters.
-/

namespace PathIgnore

/-- A tree on a disk. -/
structure WorkTree where
  root : NativePath
  ruleFileName : Text
  deriving DecidableEq, Repr

namespace WorkTree

/-- The tree at a path, with rule files of the usual name. -/
def ofRoot (root : NativePath) : WorkTree := ⟨root, defaultRuleFileName⟩

/-- The path of the rule file of a directory. -/
def ruleFilePath (tree : WorkTree) (directory : TreePath) : NativePath :=
  (directory.toNative tree.root).join (.ofText tree.ruleFileName)

/-- The lines of the rule file of a directory. -/
def linesAt (tree : WorkTree) (disk : Disk) (directory : TreePath) :
    Except ReadError (Option (List Text)) :=
  match disk.read (tree.ruleFilePath directory) with
  | .ok data => .ok (some (Utf8.decode data).lines)
  | .error .notFound => .ok none
  | .error error => .error ⟨tree.ruleFilePath directory, error⟩

/-- Whether a path is a directory. -/
def isDirectory (tree : WorkTree) (disk : Disk) (path : TreePath) : Bool :=
  disk.isDirectory (path.toNative tree.root)

/-- The answers of the tree. -/
def source (tree : WorkTree) (disk : Disk) : Source where
  linesAt := tree.linesAt disk
  isDirectory := tree.isDirectory disk

end WorkTree

end PathIgnore
