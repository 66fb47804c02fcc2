import PathIgnore.TreePath

/-!
# Sources of rule files

Where the rule files of a tree come from. Deciding about a path needs two answers from a tree: the
lines of the rule file of a directory, and whether a path is a directory.
-/

namespace PathIgnore

/-- Why a file operation failed. -/
inductive FileError where
  | notFound
  | notADirectory
  | isADirectory
  | alreadyExists
  /-- A name, or the whole path, is longer than the system allows. -/
  | nameTooLong
  /-- The path holds a NUL byte. -/
  | nulInPath
  /-- The rule file is marked as unreadable. -/
  | unreadable
  deriving DecidableEq, Repr

/-- The error in words. -/
def FileError.message : FileError → Text
  | .notFound => "No such file or directory (os error 2)".toList
  | .alreadyExists => "File exists (os error 17)".toList
  | .notADirectory => "Not a directory (os error 20)".toList
  | .isADirectory => "Is a directory (os error 21)".toList
  | .nameTooLong => "File name too long (os error 36)".toList
  | .nulInPath => "file name contained an unexpected NUL byte".toList
  | .unreadable => "rule file is unreadable".toList

/-- A rule file that could not be read. -/
structure ReadError where
  file : NativePath
  cause : FileError
  deriving DecidableEq, Repr

/-- The error in words. -/
def ReadError.message (error : ReadError) : Text :=
  "failed to read rule file '".toList ++ error.file.toText ++ "': ".toList ++ error.cause.message

/-- The name that rule files have unless another one is chosen. -/
def defaultRuleFileName : Text := ".gitignore".toList

/-- What a tree answers. -/
structure Source where
  /-- The lines of a directory's rule file, or none if the directory has no rule file. -/
  linesAt : TreePath → Except ReadError (Option (List Text))
  /-- Whether a path is a directory. -/
  isDirectory : TreePath → Bool

end PathIgnore
