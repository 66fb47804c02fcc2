import PathIgnore.TreePath

/-!
# Lineages

The directories whose rule files may decide about a path: from the path itself, if it is a
directory, or from the directory that holds it, up to the root. Those inside a metadata directory
are flagged. Each comes with the path as seen from it; what is seen from one directory is the end of
what is seen from the next.
-/

namespace PathIgnore

namespace TreePath

/-- The path of the given pieces and the directories that it lies in, up to the root. -/
def ascend (last : Text) : List Text → List TreePath
  | [] => if last.isEmpty then [root] else [⟨last, []⟩, root]
  | next :: above => ⟨last, next :: above⟩ :: ascend next above

/-- The path, the directory that holds it, the one that holds that, and so on up to the root. -/
def selfAndAncestors (path : TreePath) : List TreePath :=
  ascend path.last path.above

end TreePath

/-- A directory of a lineage. -/
structure Ancestor where
  path : TreePath
  /-- Whether the directory is, or lies in, a metadata directory. -/
  metadata : Bool
  /-- The path whose lineage this is, as seen from the directory. -/
  view : Text
  deriving DecidableEq, Repr

namespace TreePath

/-- Whether the path is, or lies in, a directory with the metadata name. -/
def isMetadata (path : TreePath) (metadataName : Text) : Bool :=
  !metadataName.isEmpty && path.line.contains metadataName

/-- The nearest directory whose rule file may decide about the path. -/
def nearestDirectory (path : TreePath) (isDirectory : Bool) : TreePath :=
  if isDirectory then path else path.parent?.getD root

/-- What is seen of a path from a directory, if these pieces of it stand before the directory's line:
nothing if the path is the directory. -/
def viewOf (pieces : List Text) : Option Text :=
  if pieces = [] then none else some (textOfLine pieces)

/-- What is seen from the directory that a directory lies in, given what is seen from that one. -/
def viewAbove (directory : TreePath) : Option Text → Text
  | none => directory.last
  | some view => directory.last ++ '/' :: view

/-- The text of a path as seen from the directories that it lies in, given what is seen from the
first of them. From the root, all of the text is seen. -/
def views (text : Text) : Option Text → List TreePath → List Text
  | _, [] => []
  | view, directory :: rest =>
    (if directory.isRoot then text else view.getD []) ::
      views text (some (viewAbove directory view)) rest

/-- The directories whose rule files may decide about the path, nearest first. -/
def lineage (path : TreePath) (isDirectory : Bool) (metadataName : Text) : List Ancestor :=
  let directories := (path.nearestDirectory isDirectory).selfAndAncestors
  directories.zipWith (fun directory view => ⟨directory, directory.isMetadata metadataName, view⟩)
    (views path.text (viewOf (if isDirectory then [] else [path.last])) directories)

theorem isMetadata_eq (path : TreePath) (metadataName : Text) :
    path.isMetadata metadataName = path.components.contains metadataName := by
  rw [Bool.eq_iff_iff]
  simp [isMetadata, components, and_comm]

theorem selfAndAncestors_of_parent?_eq_none {path : TreePath} (h : path.parent? = none) :
    path.selfAndAncestors = [path] := by
  obtain ⟨last, above⟩ := path
  cases above with
  | nil =>
    obtain rfl : last = [] := by simpa [parent?] using h
    rfl
  | cons next above => simp [parent?] at h

theorem selfAndAncestors_of_parent?_eq_some {path parent : TreePath}
    (h : path.parent? = some parent) :
    path.selfAndAncestors = path :: parent.selfAndAncestors := by
  obtain ⟨last, above⟩ := path
  cases above with
  | nil =>
    have hlast : last ≠ [] := by
      rintro rfl
      simp [parent?] at h
    obtain rfl : root = parent := by simpa [parent?, hlast] using h
    simp [selfAndAncestors, ascend, root, hlast]
  | cons next above =>
    obtain rfl : ⟨next, above⟩ = parent := by simpa [parent?] using h
    rfl

@[simp] theorem selfAndAncestors_root : root.selfAndAncestors = [root] := rfl

/-- What is seen from an ancestor is what stands before it in the line. -/
theorem relativeTo?_of_line_eq {path ancestor : TreePath} {pieces : List Text}
    (h : path.line = pieces ++ ancestor.line) (hroot : ancestor.isRoot = false) :
    path.relativeTo? ancestor = some (textOfLine pieces) := by
  simp [relativeTo?, h, hroot]

theorem textOfLine_concat {pieces : List Text} (h : pieces ≠ []) (piece : Text) :
    textOfLine (pieces ++ [piece]) = piece ++ '/' :: textOfLine pieces := by
  cases pieces with
  | nil => exact absurd rfl h
  | cons last above => simp [textOfLine]

theorem getD_viewOf (pieces : List Text) : (viewOf pieces).getD [] = textOfLine pieces := by
  cases pieces <;> simp [viewOf, textOfLine]

theorem viewAbove_viewOf (directory : TreePath) (pieces : List Text) :
    some (directory.viewAbove (viewOf pieces)) = viewOf (pieces ++ [directory.last]) := by
  by_cases h : pieces = []
  · simp [h, viewOf, viewAbove, textOfLine]
  · simp [h, viewOf, viewAbove, textOfLine_concat h]

/-- What is seen from a directory is what the path is called relative to it. -/
theorem views_ascend {path : TreePath} {last : Text} {above pieces : List Text}
    (h : path.line = pieces ++ last :: above) :
    views path.text (viewOf pieces) (ascend last above) =
      (ascend last above).map fun directory => (path.relativeTo? directory).getD [] := by
  induction above generalizing last pieces with
  | nil =>
    by_cases hlast : last = []
    · simp [ascend, hlast, views]
    · have hroot : isRoot ⟨last, []⟩ = false := by simpa [isRoot] using hlast
      have hrel : path.relativeTo? ⟨last, []⟩ = some (textOfLine pieces) :=
        relativeTo?_of_line_eq h hroot
      simp [ascend, hlast, views, hroot, hrel, getD_viewOf]
  | cons next above ih =>
    have hroot : isRoot ⟨last, next :: above⟩ = false := by simp [isRoot]
    have hrel : path.relativeTo? ⟨last, next :: above⟩ = some (textOfLine pieces) :=
      relativeTo?_of_line_eq h hroot
    have hnext : path.line = (pieces ++ [last]) ++ next :: above := by simp [h]
    simp [ascend, views, hroot, hrel, getD_viewOf, viewAbove_viewOf, ih hnext]

theorem views_nearestDirectory (path : TreePath) (isDirectory : Bool) :
    views path.text (viewOf (if isDirectory then [] else [path.last]))
        (path.nearestDirectory isDirectory).selfAndAncestors =
      (path.nearestDirectory isDirectory).selfAndAncestors.map fun directory =>
        (path.relativeTo? directory).getD [] := by
  obtain ⟨last, above⟩ := path
  cases isDirectory with
  | true =>
    have hline : line ⟨last, above⟩ = [] ++ last :: above := rfl
    exact views_ascend hline
  | false =>
    cases above with
    | nil =>
      have hnearest : nearestDirectory ⟨last, []⟩ false = root := by
        by_cases hlast : last = [] <;> simp [nearestDirectory, parent?, hlast]
      simp [hnearest, views]
    | cons next above =>
      have hline : line ⟨last, next :: above⟩ = [last] ++ next :: above := rfl
      exact views_ascend hline

/-- The lineage, with the view of each directory said by itself. -/
theorem lineage_eq_map (path : TreePath) (isDirectory : Bool) (metadataName : Text) :
    path.lineage isDirectory metadataName =
      (path.nearestDirectory isDirectory).selfAndAncestors.map fun directory =>
        ⟨directory, directory.isMetadata metadataName, (path.relativeTo? directory).getD []⟩ := by
  simp [lineage, views_nearestDirectory, List.zipWith_map_right]

theorem mem_selfAndAncestors_self (path : TreePath) : path ∈ path.selfAndAncestors := by
  cases h : path.parent? with
  | none => simp [selfAndAncestors_of_parent?_eq_none h]
  | some parent => simp [selfAndAncestors_of_parent?_eq_some h]

end TreePath

end PathIgnore
