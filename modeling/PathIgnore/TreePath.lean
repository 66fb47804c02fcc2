import PathIgnore.NativePath

/-!
# Tree paths

A tree path names a place in a tree by the pieces between the slashes of its text; the root is the
empty text, whose only piece is empty. The pieces are held from the last to the first, so a path
shares those above it with the directory that it lies in. `parse` and `ofNative` make paths in
normal form. `join` takes any text as a name, so a path made by it need not be normal.
-/

namespace PathIgnore

-- The instance of the core library, also where others are in scope.
attribute [local instance (2000)] instHashableChar

/-- Why a candidate names no place in a tree. -/
inductive PathError where
  /-- The path does not lie below the root of the tree. -/
  | outsideRoot (path root : Text)
  /-- The path is absolute where a relative one is needed. -/
  | absolute (path : Text)
  /-- A component of the path is `..`. -/
  | parentTraversal (path : Text)
  deriving DecidableEq, Repr

/-- The error in words. -/
def PathError.message : PathError → Text
  | .outsideRoot path root =>
    "path '".toList ++ path ++ "' lies outside the repository root '".toList ++ root ++ ['\'']
  | .absolute path => "path '".toList ++ path ++ "' must be relative to the repository root".toList
  | .parentTraversal path =>
    "path '".toList ++ path ++ "' climbs out of its directory with '..'".toList

/-- A place in a tree. -/
structure TreePath where
  /-- The piece of the path's text after the last `/`. -/
  last : Text
  /-- The pieces before it, the nearest first. -/
  above : List Text
  deriving DecidableEq, Repr, Hashable

namespace TreePath

/-- The root of the tree. -/
def root : TreePath := ⟨[], []⟩

/-- The pieces of the path, from the last to the first. -/
def line (path : TreePath) : List Text :=
  path.last :: path.above

/-- The path of the given pieces, from the last to the first. -/
def ofLine : List Text → TreePath
  | [] => root
  | last :: above => ⟨last, above⟩

/-- The text of pieces, given from the last to the first, with a `/` between them. -/
def textOfLine : List Text → Text
  | [] => []
  | last :: above => above.foldl (fun text piece => piece ++ '/' :: text) last

/-- The text of the path. -/
def text (path : TreePath) : Text :=
  textOfLine path.line

/-- Whether a component is dropped: it is empty or `.`. -/
def isDull (component : Text) : Bool :=
  component = [] || component = ['.']

/-- The path with the given components. -/
def ofComponents (components : List Text) : TreePath :=
  ofLine components.reverse

/-- The path that a text writes. -/
def parse (text : Text) : Except PathError TreePath :=
  if text.head? = some '/' then .error (.absolute text)
  else if ['.', '.'] ∈ text.splitOn '/' then .error (.parentTraversal text)
  else .ok (ofComponents ((text.splitOn '/').filter (!isDull ·)))

/-- Whether the path is the root. -/
def isRoot (path : TreePath) : Bool :=
  path.above.isEmpty && path.last.isEmpty

/-- The path with one more name at its end. Slashes in the name cut it into pieces. -/
def join (path : TreePath) (name : Text) : TreePath :=
  ofLine ((name.splitOn '/').reverse ++ if path.isRoot then [] else path.line)

/-- The path below `start` that the components of a native path lead to. -/
def ofNativeComponents (native : NativePath) :
    TreePath → List NativePath.Component → Except PathError TreePath
  | start, [] => .ok start
  | start, .here :: rest => ofNativeComponents native start rest
  | start, .name bytes :: rest => ofNativeComponents native (start.join (Utf8.decode bytes)) rest
  | _, .up :: _ => .error (.parentTraversal native.toText)
  | _, .root :: _ => .error (.absolute native.toText)

/-- The path that a native path writes, each component decoded by itself. -/
def ofNative (native : NativePath) : Except PathError TreePath :=
  ofNativeComponents native root native.components

/-- The directory that holds the path. -/
def parent? (path : TreePath) : Option TreePath :=
  match path.above with
  | [] => if path.last.isEmpty then none else some root
  | next :: above => some ⟨next, above⟩

/-- The last name of the path. -/
def name? (path : TreePath) : Option Text :=
  if path.isRoot then none else some path.last

/-- The names that lead to the path. -/
def components (path : TreePath) : List Text :=
  path.line.reverse.filter (· ≠ [])

/-- The path as seen from `ancestor`, or none if it is neither `ancestor` nor below it. -/
def relativeTo? (path ancestor : TreePath) : Option Text :=
  if ancestor.isRoot then some path.text
  else
    let below := path.line.length - ancestor.line.length
    if path.line.drop below = ancestor.line then some (textOfLine (path.line.take below)) else none

/-- Whether the path is `other` or an ancestor of it. -/
def contains (path other : TreePath) : Bool :=
  (other.relativeTo? path).isSome

/-- The native path of this place, for a tree that stands at `base`. No component starts with a
slash, so joining them one by one gives the same path as joining them all at once. -/
def toNative (path : TreePath) (base : NativePath) : NativePath :=
  match path.components with
  | [] => base
  | names => base.join (.ofText (ofComponents names).text)

/-- The path as shown to people. -/
def display (path : TreePath) : Text :=
  if path.isRoot then ['.'] else path.text

/-- Paths are ordered by their texts, character by character, which is also the order of their
encodings, byte by byte. -/
instance : Ord TreePath where
  compare a b := compareOfLessAndEq a.text b.text

/-- Whether the path is in normal form: it is the root, or every piece is a name, so not empty, `.`
or `..`, and without a `/`. -/
def IsNormal (path : TreePath) : Prop :=
  path = root ∨ ∀ piece ∈ path.line, !isDull piece ∧ piece ≠ ['.', '.'] ∧ '/' ∉ piece

instance (path : TreePath) : Decidable path.IsNormal :=
  inferInstanceAs (Decidable (_ ∨ _))

@[simp] theorem isRoot_eq_true_iff {path : TreePath} : path.isRoot = true ↔ path = root := by
  cases path
  simp [isRoot, root, and_comm]

theorem isRoot_eq_false {path : TreePath} (h : path ≠ root) : path.isRoot = false :=
  eq_false_of_ne_true fun hroot => h (isRoot_eq_true_iff.1 hroot)

@[simp] theorem text_root : root.text = [] := rfl

@[simp] theorem components_root : root.components = [] := rfl

@[simp] theorem relativeTo?_root (path : TreePath) : path.relativeTo? root = some path.text := rfl

theorem isNormal_root : root.IsNormal := .inl rfl

@[simp] theorem text_last (last : Text) : text ⟨last, []⟩ = last := rfl

theorem foldl_append_slash (above : List Text) (text : Text) :
    above.foldl (fun text piece => piece ++ '/' :: text) text =
      above.foldl (fun text piece => piece ++ '/' :: text) [] ++ text := by
  induction above generalizing text with
  | nil => rfl
  | cons piece above ih =>
    rw [List.foldl_cons, List.foldl_cons, ih, ih (piece ++ ['/'])]
    simp

/-- The text of a path is that of the pieces above the last one, a `/`, and the last one. -/
theorem text_cons (last next : Text) (above : List Text) :
    text ⟨last, next :: above⟩ = text ⟨next, above⟩ ++ '/' :: last := by
  simp only [text, line, textOfLine, List.foldl_cons]
  rw [foldl_append_slash, foldl_append_slash _ next]
  simp

/-- Every path but the root is longer than the directory that holds it. -/
theorem length_text_lt_of_parent? {path parent : TreePath} (h : path.parent? = some parent) :
    parent.text.length < path.text.length := by
  obtain ⟨last, above⟩ := path
  cases above with
  | nil =>
    cases last with
    | nil => simp [parent?] at h
    | cons c rest =>
      obtain rfl : root = parent := by simpa [parent?] using h
      simp
  | cons next above =>
    obtain rfl : ⟨next, above⟩ = parent := by simpa [parent?] using h
    rw [text_cons, List.length_append, List.length_cons]
    omega

end TreePath

end PathIgnore
