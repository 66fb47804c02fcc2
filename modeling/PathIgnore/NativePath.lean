import PathIgnore.Text.Utf8

/-!
# Native paths

Paths as the operating system takes them: bytes, cut by slashes. Repeated slashes, a trailing slash
and every `.` but a leading one make no difference to the components of a path.
-/

namespace PathIgnore

/-- A path as the operating system takes it. -/
structure NativePath where
  bytes : List UInt8
  deriving DecidableEq, Repr

namespace NativePath

/-- The byte between components. -/
def slash : UInt8 := 0x2F

/-- The byte of `.`. -/
def dot : UInt8 := 0x2E

/-- A component of a path. -/
inductive Component where
  /-- The leading slash of an absolute path. -/
  | root
  /-- A leading `.`. -/
  | here
  /-- `..`. -/
  | up
  /-- A name. -/
  | name (bytes : List UInt8)
  deriving DecidableEq, Repr

/-- The path that a text writes. -/
def ofText (text : Text) : NativePath :=
  ⟨Utf8.encode text⟩

/-- The path as a text. -/
def toText (path : NativePath) : Text :=
  Utf8.decode path.bytes

/-- Whether the path starts at the root of the file system. -/
def isAbsolute (path : NativePath) : Bool :=
  path.bytes.head? = some slash

/-- The runs of bytes between slashes. -/
def pieces (path : NativePath) : List (List UInt8) :=
  path.bytes.splitOn slash

/-- Whether a piece makes no component: it is empty or `.`. -/
def isDull (piece : List UInt8) : Bool :=
  piece = [] || piece = [dot]

/-- The component that a piece makes. -/
def componentOf (piece : List UInt8) : Component :=
  if piece = [dot, dot] then .up else .name piece

/-- The components of the pieces after the start of a path. -/
def componentsOf (pieces : List (List UInt8)) : List Component :=
  (pieces.filter (!isDull ·)).map componentOf

/-- The components of a path. -/
def components (path : NativePath) : List Component :=
  let rest := componentsOf path.pieces
  if path.isAbsolute then .root :: rest
  else if path.pieces.head? = some [dot] then .here :: rest
  else rest

/-- The path `name` taken from `path`: an absolute one replaces `path`, and joining nothing leaves a
trailing slash. -/
def join (path name : NativePath) : NativePath :=
  if name.isAbsolute || path.bytes = [] then name
  else if path.bytes.getLast? = some slash then ⟨path.bytes ++ name.bytes⟩
  else ⟨path.bytes ++ slash :: name.bytes⟩

/-- The pieces without those at the end that make no component. -/
def trimPieces (pieces : List (List UInt8)) : List (List UInt8) :=
  (pieces.reverse.dropWhile isDull).reverse

/-- The pieces left after those that make the given components, or none if they differ. -/
def dropComponents : List Component → List (List UInt8) → Option (List (List UInt8))
  | [], pieces => some pieces
  | component :: rest, pieces =>
    match pieces.dropWhile isDull with
    | [] => none
    | piece :: pieces => if componentOf piece = component then dropComponents rest pieces else none

/-- The path of the given pieces. -/
def ofPieces (pieces : List (List UInt8)) : NativePath :=
  ⟨List.intercalate [slash] pieces⟩

/-- The relative path of the given pieces without those at its ends that make no component. -/
def ofPiecesTrimmed (pieces : List (List UInt8)) : NativePath :=
  ofPieces (trimPieces (pieces.dropWhile isDull))

/-- The absolute path of the given pieces. -/
def ofPiecesAbsolute : List (List UInt8) → NativePath
  | [] => ⟨[slash]⟩
  | pieces => ofPieces ([] :: pieces)

/-- The absolute path `path` as seen from `base`, or none if it does not lie below `base`. Slashes
inside what is left are kept; at its ends, pieces that make no component are dropped. Seen from an
empty base, an absolute path stays absolute. -/
def below? (path base : NativePath) : Option NativePath :=
  match base.components with
  | [] => some (ofPiecesAbsolute (trimPieces path.pieces.tail))
  | .root :: names => (dropComponents names path.pieces.tail).map ofPiecesTrimmed
  | _ => none

/-- The path without the leading `.` and without the slashes and `.` at its end; what stands between
them is kept. An absolute path stays as it is. -/
def trimmed (path : NativePath) : NativePath :=
  if path.isAbsolute then path else ofPiecesTrimmed path.pieces

@[simp] theorem isDull_nil : isDull [] = true := rfl

@[simp] theorem isAbsolute_cons (b : UInt8) (bytes : List UInt8) :
    isAbsolute ⟨b :: bytes⟩ = decide (b = slash) := by
  simp [isAbsolute]

end NativePath

end PathIgnore
