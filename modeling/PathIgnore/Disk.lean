import PathIgnore.Source

/-!
# Disks

Directories and regular files, without links or permissions, as seen from a working directory. Paths
are followed name by name: every name but the last must be that of a directory, `..` leads back to
the directory above, and what lies outside of the working directory is not known, so nothing is
found there. A change names its place by the full path, which counts in full against the length that
a path may have. An operation that fails halfway keeps what it has done so far.
-/

namespace PathIgnore

/-- What a name in a directory stands for. -/
inductive Entry where
  /-- A directory, with what stands in it under each name. -/
  | directory (entries : List (List UInt8 × Entry))
  | file (data : List UInt8)

/-- A disk: what stands in the working directory under each name. -/
structure Disk where
  entries : List (List UInt8 × Entry)

/-! ## Entries -/

namespace Entry

/-- What stands in a directory. -/
def entries : Entry → List (List UInt8 × Entry)
  | .directory entries => entries
  | .file _ => []

/-- Whether the entry is a directory. -/
def isDirectory : Entry → Bool
  | .directory _ => true
  | .file _ => false

/-- The entries of a directory after one of them has changed or come in. -/
def put (name : List UInt8) (entry : Entry) :
    List (List UInt8 × Entry) → List (List UInt8 × Entry)
  | [] => [(name, entry)]
  | (other, old) :: rest =>
    if other = name then (name, entry) :: rest else (other, old) :: put name entry rest

/-- The entries of a directory after a change under the names that lead to it. -/
def putAt (entry : Entry) : List (List UInt8) → List (List UInt8 × Entry) →
    List (List UInt8 × Entry)
  | [], entries => entries
  | [name], entries => put name entry entries
  | name :: next :: rest, entries =>
    let inside := ((entries.lookup name).map Entry.entries).getD []
    put name (.directory (putAt entry (next :: rest) inside)) entries

/-- The entry under the names that lead to it. -/
def lookupAt? : List (List UInt8) → List (List UInt8 × Entry) → Option Entry
  | [], entries => some (.directory entries)
  | [name], entries => entries.lookup name
  | name :: next :: rest, entries =>
    (entries.lookup name).bind fun entry => lookupAt? (next :: rest) entry.entries

end Entry

namespace Disk

/-- Where a path leads. -/
inductive Place where
  /-- The place under these names, the last of them first, each with what stands there. -/
  | inside (trail : List (List UInt8 × Entry))
  /-- Somewhere outside of the working directory. -/
  | outside

/-- The disk with nothing in its working directory. -/
def empty : Disk := ⟨[]⟩

/-- The number of bytes that a name may have. -/
def maxName : Nat := 255

/-- The number of bytes that a path may have. -/
def maxPath : Nat := 4095

/-- The entry at a place. What stands outside of the working directory is not known. -/
def entryAt (disk : Disk) : Place → Entry
  | .inside [] => .directory disk.entries
  | .inside ((_, entry) :: _) => entry
  | .outside => .directory []

/-- Whether a directory is at a place. -/
def isDirectoryAt (disk : Disk) (place : Place) : Bool :=
  (disk.entryAt place).isDirectory

/-- The disk with an entry under the names that lead to it from the working directory. -/
def put (disk : Disk) (names : List (List UInt8)) (entry : Entry) : Disk :=
  ⟨Entry.putAt entry names disk.entries⟩

/-- The entry under the names that lead to it from the working directory. -/
def get? (disk : Disk) (names : List (List UInt8)) : Option Entry :=
  Entry.lookupAt? names disk.entries

/-- The number of bytes by which the full path of the working directory is longer than `.`. -/
def homeLength : Nat := 14

/-! ## Following paths -/

/-- The place under a name in a directory, if something is there. -/
def find (disk : Disk) (place : Place) (name : List UInt8) : Except FileError Place :=
  if maxName < name.length then .error .nameTooLong
  else
    match place with
    | .outside => .error .notFound
    | .inside trail =>
      match (disk.entryAt (.inside trail)).entries.lookup name with
      | some entry => .ok (.inside ((name, entry) :: trail))
      | none => .error .notFound

/-- The names of a new entry in a directory, unless that lies outside of the working directory. -/
def newNames : Place → List UInt8 → Except FileError (List (List UInt8))
  | .inside trail, name => .ok (name :: trail.map Prod.fst).reverse
  | .outside, _ => .error .notFound

/-- Follows one piece of a path. -/
def follow (disk : Disk) (place : Place) (piece : List UInt8) : Except FileError Place :=
  if !disk.isDirectoryAt place then .error .notADirectory
  else if piece = [NativePath.dot] then .ok place
  else if piece = [NativePath.dot, NativePath.dot] then
    match place with
    | .inside (_ :: trail) => .ok (.inside trail)
    | _ => .ok .outside
  else disk.find place piece

/-- The pieces of a path that are to be followed. -/
def stepsOf (path : NativePath) : List (List UInt8) :=
  path.pieces.filter (· ≠ [])

/-- Where following a path starts. -/
def startOf (path : NativePath) : Place :=
  if path.isAbsolute then .outside else .inside []

/-- Refuses a path that cannot be followed at all. -/
def checkPath (path : NativePath) : Except FileError Unit :=
  if path.bytes.contains 0 then .error .nulInPath
  else if path.bytes = [] then .error .notFound
  else if maxPath < path.bytes.length then .error .nameTooLong
  else .ok ()

/-- Refuses a path whose full form cannot be followed at all. -/
def checkFullPath (path : NativePath) : Except FileError Unit := do
  checkPath path
  if !path.isAbsolute && maxPath < homeLength + path.bytes.length then .error .nameTooLong
  else .ok ()

/-- Whether a path ends with a slash, and so names a directory. -/
def endsWithSlash (path : NativePath) : Bool :=
  path.bytes.getLast? = some NativePath.slash

/-- The place that a path leads to, if something is there. -/
def locate (disk : Disk) (path : NativePath) : Except FileError Place := do
  checkPath path
  let place ← (stepsOf path).foldlM disk.follow (startOf path)
  if endsWithSlash path && !disk.isDirectoryAt place then .error .notADirectory else .ok place

/-- The directory that holds what a full path names, and the last piece of the path. -/
def locateParent (disk : Disk) (path : NativePath) : Except FileError (Place × List UInt8) := do
  checkFullPath path
  let steps := stepsOf path
  let place ← steps.dropLast.foldlM disk.follow (startOf path)
  if disk.isDirectoryAt place then .ok (place, steps.getLast?.getD [NativePath.dot])
  else .error .notADirectory

/-- Whether a piece of a path is a name, and not `.` or `..`. -/
def isName (piece : List UInt8) : Bool :=
  piece ≠ [NativePath.dot] && piece ≠ [NativePath.dot, NativePath.dot]

/-! ## Operations -/

/-- Whether a path leads to a directory. -/
def isDirectory (disk : Disk) (path : NativePath) : Bool :=
  match disk.locate path with
  | .ok place => disk.isDirectoryAt place
  | .error _ => false

/-- The data of the file that a path leads to. -/
def read (disk : Disk) (path : NativePath) : Except FileError (List UInt8) := do
  let place ← disk.locate path
  match disk.entryAt place with
  | .file data => .ok data
  | .directory _ => .error .isADirectory

/-- The disk with one more directory, in a directory that is there. -/
def makeDirectory (disk : Disk) (path : NativePath) : Except FileError Disk := do
  let (place, name) ← disk.locateParent path
  if !isName name then .error .alreadyExists
  else
    match disk.find place name with
    | .ok _ => .error .alreadyExists
    | .error .notFound => (disk.put · (.directory [])) <$> newNames place name
    | .error error => .error error

/-- The names of the file to write under a path, and the data that is in it already. -/
def openFile (disk : Disk) (path : NativePath) :
    Except FileError (List (List UInt8) × List UInt8) := do
  let (place, name) ← disk.locateParent path
  if !isName name || endsWithSlash path then .error .isADirectory
  else
    match disk.find place name with
    | .ok found =>
      match disk.entryAt found with
      | .file data => (·, data) <$> newNames place name
      | .directory _ => .error .isADirectory
    | .error .notFound => (·, []) <$> newNames place name
    | .error error => .error error

/-- Writes the data of a file, in place of what was in it or after it. -/
def write (disk : Disk) (path : NativePath) (data : List UInt8) (append : Bool) :
    Except FileError Disk := do
  let (names, old) ← disk.openFile path
  .ok (disk.put names (.file (if append then old ++ data else data)))

/-- Makes a directory unless it is there. -/
def ensureDirectory (disk : Disk) (path : NativePath) : Disk × Except FileError Unit :=
  match disk.makeDirectory path with
  | .ok disk => (disk, .ok ())
  | .error error =>
    if error = .alreadyExists && disk.isDirectory path then (disk, .ok ())
    else (disk, .error error)

/-- Makes a directory unless it is there. If it has nowhere to stand, what is above it is made
first. -/
def ensureDirectoryAfter (disk : Disk) (path : NativePath)
    (makeAbove : Unit → Disk × Except FileError Unit) : Disk × Except FileError Unit :=
  match disk.ensureDirectory path with
  | (_, .error .notFound) =>
    match makeAbove () with
    | (disk, .ok ()) => disk.ensureDirectory path
    | failed => failed
  | result => result

/-- The names that lead to the directory above a path, the last of them first. -/
def namesAbove (path : NativePath) : List (List UInt8) :=
  (path.pieces.filter (!NativePath.isDull ·)).reverse.tail

/-- Makes the directory that names lead to, the last of them given first, and those above it. -/
def makeDirectoriesAt (disk : Disk) (isAbsolute : Bool) :
    List (List UInt8) → Disk × Except FileError Unit
  | [] => (disk, .ok ())
  | name :: above =>
    let pieces := (name :: above).reverse
    disk.ensureDirectoryAfter (NativePath.ofPieces (if isAbsolute then [] :: pieces else pieces))
      fun _ => makeDirectoriesAt disk isAbsolute above

/-- Makes the directories above a path. -/
def makeDirectoriesAbove (disk : Disk) (path : NativePath) : Disk × Except FileError Unit :=
  disk.makeDirectoriesAt path.isAbsolute (namesAbove path)

/-- Makes a directory and those above it. -/
def makeDirectories (disk : Disk) (path : NativePath) : Disk × Except FileError Unit :=
  disk.ensureDirectoryAfter path fun _ => disk.makeDirectoriesAbove path

/-! ## Changes -/

/-- A change to what is in the working directory. -/
inductive Change where
  /-- Makes a directory and those above it. -/
  | mkdir (path : NativePath)
  /-- Makes an empty file and the directories above it. -/
  | touch (path : NativePath)
  /-- Adds lines to the rule file of a directory, which is made if it is not there. -/
  | ruleFile (directory : NativePath) (text : Text)
  /-- Writes the data of a file in a directory that is there. -/
  | write (path : NativePath) (data : List UInt8)
  deriving DecidableEq, Repr

/-- The path as taken from the working directory: the empty path names that directory. -/
def fromHere (path : NativePath) : NativePath :=
  (NativePath.mk [NativePath.dot]).join path

/-- The data of the file that the full form of a path leads to. -/
def readHere (disk : Disk) (path : NativePath) : Except FileError (List UInt8) := do
  checkFullPath (fromHere path)
  disk.read (fromHere path)

/-- The path that a change is made to. -/
def Change.path : Change → NativePath
  | .mkdir path | .touch path | .write path _ => path
  | .ruleFile directory _ => directory.join (.ofText defaultRuleFileName)

/-- The path that a change is reported under: where it was made, as seen from the working
directory. -/
def Change.reportedPath (change : Change) : NativePath :=
  change.path.trimmed

/-- What is left to do once the directories are there. -/
def finish (prepared : Disk × Except FileError Unit)
    (next : Disk → Except FileError Disk) : Disk × Except FileError Unit :=
  match prepared with
  | (disk, .ok ()) =>
    match next disk with
    | .ok disk => (disk, .ok ())
    | .error error => (disk, .error error)
  | failed => failed

/-- Makes a change, and says whether it could be finished. -/
def apply (disk : Disk) (change : Change) : Disk × Except FileError Unit :=
  match change with
  | .mkdir path => disk.makeDirectories (fromHere path)
  | .touch path =>
    finish (disk.makeDirectoriesAbove (fromHere path)) (·.write (fromHere path) [] false)
  | .ruleFile directory text =>
    finish (disk.makeDirectories (fromHere directory))
      (·.write (fromHere change.path) (Utf8.encode (text ++ ['\n'])) true)
  | .write path data => finish (disk, .ok ()) (·.write (fromHere path) data false)

/-- The working directory of a version-controlled tree: its metadata directory and two files. -/
def versioned : Disk :=
  let name (text : String) : List UInt8 := Utf8.encode text.toList
  ⟨[(name ".git", .directory
    [(name "HEAD", .file (name "ref: refs/heads/main\n")),
      (name "config", .file (name "[core]\n\tbare = false\n"))])]⟩

/-! ## What stands where after a change -/

theorem lookup_put_self (name : List UInt8) (entry : Entry) (entries : List (List UInt8 × Entry)) :
    (Entry.put name entry entries).lookup name = some entry := by
  induction entries with
  | nil => simp [Entry.put]
  | cons first rest ih =>
    obtain ⟨other, old⟩ := first
    by_cases h : other = name
    · simp [Entry.put, h]
    · have h' : (name == other) = false := by simpa using fun e => h e.symm
      simp [Entry.put, h, List.lookup_cons, h', ih]

theorem lookup_put_of_ne {name other : List UInt8} (h : other ≠ name) (entry : Entry)
    (entries : List (List UInt8 × Entry)) :
    (Entry.put name entry entries).lookup other = entries.lookup other := by
  have h' : (other == name) = false := by simpa using h
  induction entries with
  | nil => simp [Entry.put, List.lookup_cons, h']
  | cons first rest ih =>
    obtain ⟨known, old⟩ := first
    by_cases hk : known = name
    · subst hk; simp [Entry.put, List.lookup_cons, h']
    · simp [Entry.put, hk, List.lookup_cons, ih]

@[simp] theorem get?_nil (disk : Disk) : disk.get? [] = some (.directory disk.entries) := rfl

end Disk

end PathIgnore
