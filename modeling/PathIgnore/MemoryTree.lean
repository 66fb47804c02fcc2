import Std.Data.HashMap
import Std.Data.HashSet
import PathIgnore.Source
import PathIgnore.TreePath.Lineage

/-!
# Trees in memory

A tree that is built by adding rule files, directories and files one after the other. The
directories that lead to what is added are added with it.
-/

namespace PathIgnore

/-- A tree in memory. -/
structure MemoryTree where
  /-- The texts that were written to the rule files, the latest first, by the directory that they
  stand in. -/
  ruleFiles : Std.HashMap TreePath (List Text)
  directories : Std.HashSet TreePath
  files : Std.HashSet TreePath
  /-- The directories whose rule files cannot be read. -/
  unreadable : Std.HashSet TreePath

namespace MemoryTree

/-- The tree that holds only its root. -/
def empty : MemoryTree := ⟨∅, ∅, ∅, ∅⟩

/-- A step in building a tree. -/
inductive Change where
  /-- Adds lines to the rule file of a directory. -/
  | ruleFile (directory text : Text)
  | directory (path : Text)
  | file (path : Text)
  /-- Makes the rule file of a directory unreadable. -/
  | unreadable (directory : Text)
  /-- Starts again with the empty tree. -/
  | reset
  deriving DecidableEq, Repr

/-- Adds directories from the nearest on. One that is known already ends the work, as those that
lead to it are known too. -/
def addDirectories : Std.HashSet TreePath → List TreePath → Std.HashSet TreePath
  | known, [] => known
  | known, directory :: rest =>
    if known.contains directory then known else addDirectories (known.insert directory) rest

/-- Adds a directory and those that lead to it. -/
def addDirectory (tree : MemoryTree) (directory : TreePath) : MemoryTree :=
  { tree with directories := addDirectories tree.directories directory.selfAndAncestors }

/-- A text with a newline at its end, unless it has one or is empty. -/
def endLines (text : Text) : Text :=
  if text.isEmpty || text.getLast? = some '\n' then text else text ++ ['\n']

/-- The text of a rule file by what was written to it, the latest first. A line that was left
without a newline is ended before more is written. -/
def textOfWritten : List Text → Text
  | [] => []
  | latest :: earlier => (earlier.reverse.map endLines).flatten ++ latest

/-- Writes lines to the end of the rule file of a directory. -/
def appendRuleFile (directory : TreePath) (text : Text)
    (files : Std.HashMap TreePath (List Text)) : Std.HashMap TreePath (List Text) :=
  files.insert directory (text :: files[directory]?.getD [])

/-- The tree with lines added to the rule file of a directory. -/
def addRuleFile (tree : MemoryTree) (directory : TreePath) (text : Text) : MemoryTree :=
  let tree := tree.addDirectory directory
  { tree with ruleFiles := appendRuleFile directory text tree.ruleFiles }

/-- The tree with one more file. -/
def addFile (tree : MemoryTree) (path : TreePath) : MemoryTree :=
  let tree := match path.parent? with
    | some parent => tree.addDirectory parent
    | none => tree
  { tree with files := tree.files.insert path }

/-- The tree with one more unreadable rule file. -/
def addUnreadable (tree : MemoryTree) (directory : TreePath) : MemoryTree :=
  let tree := tree.addDirectory directory
  { tree with unreadable := tree.unreadable.insert directory }

/-- Makes a change, unless its path is invalid. -/
def apply (tree : MemoryTree) : Change → Except PathError MemoryTree
  | .ruleFile directory text => (tree.addRuleFile · text) <$> TreePath.parse directory
  | .directory path => tree.addDirectory <$> TreePath.parse path
  | .file path => tree.addFile <$> TreePath.parse path
  | .unreadable directory => tree.addUnreadable <$> TreePath.parse directory
  | .reset => .ok empty

/-- What is said about a change whose path is invalid. -/
def invalidPathMessage (error : PathError) : Text :=
  "invalid repository path: ".toList ++ error.message

/-- The text of the rule file of a directory. -/
def ruleFile? (tree : MemoryTree) (directory : TreePath) : Option Text :=
  tree.ruleFiles[directory]?.map textOfWritten

/-- The lines of the rule file of a directory. -/
def linesAt (tree : MemoryTree) (directory : TreePath) :
    Except ReadError (Option (List Text)) :=
  if tree.unreadable.contains directory then
    .error ⟨(directory.toNative ⟨[]⟩).join (.ofText defaultRuleFileName), .unreadable⟩
  else .ok ((tree.ruleFile? directory).map Text.lines)

/-- Whether a path is a directory. -/
def isDirectory (tree : MemoryTree) (path : TreePath) : Bool :=
  path.isRoot || tree.directories.contains path

/-- Whether a path is a file. -/
def isFile (tree : MemoryTree) (path : TreePath) : Bool :=
  tree.files.contains path

/-- The answers of the tree. -/
def source (tree : MemoryTree) : Source where
  linesAt := tree.linesAt
  isDirectory := tree.isDirectory

theorem contains_addDirectories_of_contains {known : Std.HashSet TreePath} {directory : TreePath}
    (h : known.contains directory) (more : List TreePath) :
    (addDirectories known more).contains directory := by
  induction more generalizing known with
  | nil => exact h
  | cons next rest ih =>
    rw [addDirectories]
    split
    · exact h
    · exact ih (by simp [h])

@[simp] theorem endLines_nil : endLines [] = [] := rfl

@[simp] theorem textOfWritten_singleton (text : Text) : textOfWritten [text] = text := rfl

@[simp] theorem endLines_endLines (text : Text) : endLines (endLines text) = endLines text := by
  by_cases h : text.isEmpty || text.getLast? = some '\n'
  · simp [endLines, h]
  · simp [endLines, h]

theorem endLines_append {first : Text} (h : endLines first = first) (second : Text) :
    endLines (first ++ second) = first ++ endLines second := by
  cases second with
  | nil => simpa using h
  | cons c rest =>
    have hlast : (first ++ c :: rest).getLast? = (c :: rest).getLast? := by
      simp [List.getLast?_append, List.getLast?_cons]
    by_cases hend : (c :: rest).getLast? = some '\n' <;> simp [endLines, hlast, hend]

theorem endLines_flatten (texts : List Text) :
    endLines (texts.map endLines).flatten = (texts.map endLines).flatten := by
  induction texts with
  | nil => rfl
  | cons text rest ih =>
    rw [List.map_cons, List.flatten_cons, endLines_append (endLines_endLines text), ih]

/-- What is written goes to the end of the file, after the line that stood there last. -/
theorem textOfWritten_cons (text : Text) (earlier : List Text) :
    textOfWritten (text :: earlier) = endLines (textOfWritten earlier) ++ text := by
  cases earlier with
  | nil => rfl
  | cons latest earlier =>
    rw [textOfWritten, textOfWritten, endLines_append (endLines_flatten earlier.reverse)]
    simp

theorem getElem?_appendRuleFile_self (directory : TreePath) (text : Text)
    (files : Std.HashMap TreePath (List Text)) :
    (appendRuleFile directory text files)[directory]? =
      some (text :: files[directory]?.getD []) := by
  simp [appendRuleFile]

theorem getElem?_appendRuleFile_of_ne {directory other : TreePath} (h : other ≠ directory)
    (text : Text) (files : Std.HashMap TreePath (List Text)) :
    (appendRuleFile directory text files)[other]? = files[other]? := by
  simp [appendRuleFile, Std.HashMap.getElem?_insert, h.symm]

end MemoryTree

end PathIgnore
