import PathIgnore.Proofs.TreePath.Ancestors

/-!
# Paths below a directory

A path lies in just the directories that fewer than all of its names lead to (`liesIn_iff`). What
is seen of the path from a directory farther up starts with what is seen from there of a nearer one
(`viewFrom_eq_append`).
-/

namespace PathIgnore.TreePath

/-- Whether the path lies in the directory, at any depth. A path does not lie in itself. -/
def LiesIn (path directory : TreePath) : Prop :=
  directory.contains path = true ∧ path ≠ directory

instance (path directory : TreePath) : Decidable (path.LiesIn directory) :=
  inferInstanceAs (Decidable (_ ∧ _))

theorem ofLine_line (path : TreePath) : ofLine path.line = path := rfl

theorem isNormal_ancestorAt {path : TreePath} (h : path.IsNormal) (k : Nat) :
    (path.ancestorAt k).IsNormal :=
  isNormal_ofComponents fun name hname => h.isName name (List.mem_of_mem_take hname)

theorem IsNormal.depth_ancestorAt {path : TreePath} (h : path.IsNormal) {k : Nat}
    (hk : k ≤ path.depth) : (path.ancestorAt k).depth = k := by
  rw [depth, h.components_ancestorAt, List.length_take]
  exact Nat.min_eq_left hk

/-- The directories that a directory on the way lies in are on the way, too. -/
theorem IsNormal.ancestorAt_ancestorAt {path : TreePath} (h : path.IsNormal) {j k : Nat}
    (hjk : j ≤ k) : (path.ancestorAt k).ancestorAt j = path.ancestorAt j := by
  rw [ancestorAt, h.components_ancestorAt, List.take_take, Nat.min_eq_left hjk, ancestorAt]

theorem IsNormal.contains_iff {path : TreePath} (h : path.IsNormal) {directory : TreePath} :
    directory.contains path = true ↔ ∃ k, k ≤ path.depth ∧ path.ancestorAt k = directory := by
  constructor
  · intro hcontains
    rcases eq_or_ne directory root with rfl | hdirectory
    · exact ⟨0, Nat.zero_le _, rfl⟩
    have hnot : directory.isRoot = false := isRoot_eq_false hdirectory
    have hdrop : path.line.drop (path.line.length - directory.line.length) = directory.line := by
      simpa [contains, relativeTo?, hnot] using hcontains
    rcases eq_or_ne path root with rfl | hpath
    · -- The root's only piece is the last one of every path below it.
      refine absurd ?_ hdirectory
      rw [← ofLine_line directory, ← hdrop]
      simp [line, root, ofLine]
    · rw [h.line_eq hpath, List.drop_reverse] at hdrop
      refine ⟨path.depth - (path.components.reverse.length - directory.line.length),
        Nat.sub_le _ _, ?_⟩
      rw [ancestorAt, ofComponents, depth, hdrop, ofLine_line]
  · rintro ⟨k, -, rfl⟩
    simp [contains, relativeTo?_ancestorAt h]

theorem IsNormal.liesIn_iff {path : TreePath} (h : path.IsNormal) {directory : TreePath} :
    path.LiesIn directory ↔ ∃ k, k < path.depth ∧ path.ancestorAt k = directory := by
  unfold LiesIn
  rw [h.contains_iff]
  constructor
  · rintro ⟨⟨k, hk, rfl⟩, hne⟩
    refine ⟨k, Nat.lt_of_le_of_ne hk ?_, rfl⟩
    rintro rfl
    exact hne h.ancestorAt_depth.symm
  · rintro ⟨k, hk, rfl⟩
    refine ⟨⟨k, Nat.le_of_lt hk, rfl⟩, fun heq => ?_⟩
    have hdepth := h.depth_ancestorAt (Nat.le_of_lt hk)
    rw [← heq] at hdepth
    omega

/-- A directory does not lie in what lies in it. -/
theorem LiesIn.not_contains {path directory : TreePath} (hin : path.LiesIn directory)
    (h : path.IsNormal) : path.contains directory = false := by
  obtain ⟨k, hk, rfl⟩ := h.liesIn_iff.1 hin
  rw [← Bool.not_eq_true, (isNormal_ancestorAt h k).contains_iff]
  rintro ⟨j, hj, heq⟩
  have hdepth := (isNormal_ancestorAt h k).depth_ancestorAt hj
  rw [h.depth_ancestorAt (Nat.le_of_lt hk)] at hj
  rw [heq] at hdepth
  omega

/-- Of two directories on the way to a path, the one that fewer names lead to contains the other. -/
theorem IsNormal.contains_ancestorAt {path : TreePath} (h : path.IsNormal) {j k : Nat}
    (hjk : j ≤ k) (hk : k ≤ path.depth) :
    (path.ancestorAt j).contains (path.ancestorAt k) = true := by
  rw [(isNormal_ancestorAt h k).contains_iff, h.depth_ancestorAt hk]
  exact ⟨j, hjk, h.ancestorAt_ancestorAt hjk⟩

/-- The names that lead to a directory that a path lies in are among those that lead to the nearest
directory of the path. -/
theorem IsNormal.mem_directoryNames {path : TreePath} (h : path.IsNormal) {k : Nat}
    (hk : k < path.depth) {name : Text} {isDirectory : Bool}
    (hname : name ∈ (path.ancestorAt k).directoryNames isDirectory) (pathIsDirectory : Bool) :
    name ∈ path.directoryNames pathIsDirectory := by
  have hle := path.depth_le_length_directoryNames pathIsDirectory
  rw [directoryNames_eq_take] at hname ⊢
  have hmem := List.mem_of_mem_take hname
  rw [h.components_ancestorAt] at hmem
  exact (List.take_prefix_take_left (by omega)).subset hmem

/-! ## Views -/

/-- From a directory farther up, a path is seen as a nearer directory is, and on from there. -/
theorem IsNormal.viewFrom_eq_append {path : TreePath} (h : path.IsNormal) {j k : Nat}
    (hjk : j < k) (hk : k < path.depth) :
    path.viewFrom j = (path.ancestorAt k).viewFrom j ++ '/' :: path.viewFrom k := by
  have hcut : path.components.drop j =
      (path.components.take k).drop j ++ path.components.drop k := by
    conv_lhs => rw [← List.take_append_drop k path.components]
    apply List.drop_append_of_le_length
    unfold depth at hk
    rw [List.length_take]
    omega
  unfold depth at hk
  rw [viewFrom, viewFrom, h.components_ancestorAt, hcut, intercalate_append, viewFrom]
  · rw [Ne, List.drop_eq_nil_iff, List.length_take]
    omega
  · rw [Ne, List.drop_eq_nil_iff]
    omega

end PathIgnore.TreePath
