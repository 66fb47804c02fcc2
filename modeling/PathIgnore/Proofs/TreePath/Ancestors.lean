import PathIgnore.Proofs.TreePath.NormalForm

/-!
# The directories that a path lies in

The directories that a path in normal form lies in are given by the prefixes of its names, and the
path is seen from each of them by the names that are left. Main statement: the lineage of a path
lists these directories, from the longest prefix that counts to the empty one
(`IsNormal.lineage_eq`).
-/

namespace PathIgnore.TreePath

/-- How many names lead to the path. -/
def depth (path : TreePath) : Nat :=
  path.components.length

/-- The directory that the first `k` names of the path lead to. -/
def ancestorAt (path : TreePath) (k : Nat) : TreePath :=
  ofComponents (path.components.take k)

/-- The path as seen from the directory that its first `k` names lead to. -/
def viewFrom (path : TreePath) (k : Nat) : Text :=
  ['/'].intercalate (path.components.drop k)

/-- The names that lead to the nearest directory whose rule file may decide about the path. -/
def directoryNames (path : TreePath) (isDirectory : Bool) : List Text :=
  if isDirectory then path.components else path.components.dropLast

/-- The directory that the first `k` names lead to, as it stands in the lineage of the path. -/
def ancestor (path : TreePath) (metadataName : Text) (k : Nat) : Ancestor where
  path := path.ancestorAt k
  metadata := (path.components.take k).contains metadataName
  view := path.viewFrom k

theorem IsNormal.ancestorAt_depth {path : TreePath} (h : path.IsNormal) :
    path.ancestorAt path.depth = path := by
  unfold ancestorAt depth
  rw [List.take_length, h.ofComponents_components]

theorem IsNormal.viewFrom_zero {path : TreePath} (h : path.IsNormal) :
    path.viewFrom 0 = path.text := by
  unfold viewFrom
  rw [List.drop_zero, ← text_ofComponents, h.ofComponents_components]

/-- Nothing is seen of a path from itself, and something from every directory that it lies in. -/
theorem IsNormal.viewFrom_eq_nil_iff {path : TreePath} (h : path.IsNormal) {k : Nat} :
    path.viewFrom k = [] ↔ path.depth ≤ k := by
  have hnames : ∀ name ∈ path.components.drop k, name ≠ [] :=
    fun name hname => (h.isName name (List.mem_of_mem_drop hname)).1
  rw [viewFrom, intercalate_eq_nil_iff hnames, List.drop_eq_nil_iff, depth]

theorem IsNormal.components_ancestorAt {path : TreePath} (h : path.IsNormal) (k : Nat) :
    (path.ancestorAt k).components = path.components.take k := by
  apply components_ofComponents
  intro name hname
  exact (h.isName name (List.mem_of_mem_take hname)).1

theorem IsNormal.ancestorAt_inj {path : TreePath} (h : path.IsNormal) {j k : Nat}
    (hj : j ≤ path.depth) (hk : k ≤ path.depth) :
    path.ancestorAt j = path.ancestorAt k ↔ j = k := by
  constructor
  · intro heq
    have hlength := congrArg (fun p => p.components.length) heq
    simp only [h.components_ancestorAt, List.length_take] at hlength
    unfold depth at hj hk
    omega
  · rintro rfl
    rfl

theorem IsNormal.ancestorAt_ne_root {path : TreePath} (h : path.IsNormal) {k : Nat} (hpos : 0 < k)
    (hk : k < path.depth) : path.ancestorAt k ≠ root := by
  intro heq
  have hzero := (h.ancestorAt_inj (Nat.le_of_lt hk) (Nat.zero_le _)).1 heq
  omega

theorem isMetadata_ancestorAt {path : TreePath} (h : path.IsNormal) (metadataName : Text)
    (k : Nat) :
    (path.ancestorAt k).isMetadata metadataName =
      (path.components.take k).contains metadataName := by
  rw [isMetadata_eq, h.components_ancestorAt]

theorem relativeTo?_ancestorAt {path : TreePath} (h : path.IsNormal) (k : Nat) :
    path.relativeTo? (path.ancestorAt k) = some (path.viewFrom k) := by
  have hnames : ∀ name ∈ path.components.take k, name ≠ [] :=
    fun name hname => (h.isName name (List.mem_of_mem_take hname)).1
  have hview := relativeTo?_ofComponents_append hnames (path.components.drop k)
  rwa [List.take_append_drop, h.ofComponents_components] at hview

/-! ## Below a directory -/

theorem IsNormal.text_eq_append_iff {path directory : TreePath} (h : path.IsNormal)
    (hdirectory : directory.IsNormal) (hroot : directory ≠ root) {view : Text} :
    path.text = directory.text ++ '/' :: view ↔
      path.components = directory.components ++ view.splitOn '/' := by
  -- Names hold no slash, so the texts are compared piece by piece.
  have hpieces : (directory.text ++ '/' :: view).splitOn '/' =
      directory.components ++ view.splitOn '/' := by
    rw [List.splitOn_append_cons_self, hdirectory.splitOn_text hroot]
  constructor
  · intro htext
    have hpath : path ≠ root := by
      rintro rfl
      exact List.append_ne_nil_of_right_ne_nil _ (List.cons_ne_nil _ _) htext.symm
    rw [← h.splitOn_text hpath, htext, hpieces]
  · intro hcomponents
    rw [← h.intercalate_components, hcomponents, ← hpieces, List.intercalate_splitOn]

/-- A path starts with the text of a directory, and a `/` after it, if it lies in the directory. -/
theorem IsNormal.text_eq_append_iff_exists {path directory : TreePath} (h : path.IsNormal)
    (hdirectory : directory.IsNormal) (hroot : directory ≠ root) {view : Text} :
    path.text = directory.text ++ '/' :: view ↔
      ∃ k, 0 < k ∧ k < path.depth ∧ path.ancestorAt k = directory ∧ path.viewFrom k = view := by
  rw [h.text_eq_append_iff hdirectory hroot]
  constructor
  · intro hcomponents
    refine ⟨directory.depth, ?_, ?_, ?_, ?_⟩
    · exact List.length_pos_iff.2 (hdirectory.components_ne_nil hroot)
    · have hpos := List.length_pos_iff.2 (List.splitOn_ne_nil '/' view)
      unfold depth
      rw [hcomponents, List.length_append]
      omega
    · rw [ancestorAt, depth, hcomponents, List.take_left, hdirectory.ofComponents_components]
    · rw [viewFrom, depth, hcomponents, List.drop_left, List.intercalate_splitOn]
  · rintro ⟨k, -, hk, rfl, rfl⟩
    have hbelow : path.components.drop k ≠ [] := by
      intro hnil
      exact absurd (List.drop_eq_nil_iff.1 hnil) (Nat.not_le.2 hk)
    rw [h.components_ancestorAt, viewFrom, List.splitOn_intercalate '/' ?_ hbelow,
      List.take_append_drop]
    intro name hname
    exact (h.isName name (List.mem_of_mem_drop hname)).2.2.2

/-! ## Lineages -/

theorem selfAndAncestors_ofComponents {names : List Text} (h : ∀ name ∈ names, name ≠ []) :
    (ofComponents names).selfAndAncestors =
      (List.range (names.length + 1)).reverse.map fun k => ofComponents (names.take k) := by
  -- A directory is left by its last name, so the induction takes names off the end.
  induction names using List.reverseRecOn with
  | nil => simp
  | append_singleton front name ih =>
    have hname : name ≠ [] := h name (by simp)
    have hrange : (List.range ((front ++ [name]).length + 1)).reverse =
        (front.length + 1) :: (List.range (front.length + 1)).reverse := by
      rw [List.length_append, List.length_singleton, List.range_succ, List.reverse_concat]
    rw [selfAndAncestors_of_parent?_eq_some (parent?_ofComponents_concat front hname),
      ih fun n hn => h n (List.mem_append_left _ hn), hrange, List.map_cons]
    congr 1
    · rw [List.take_of_length_le (by simp)]
    · apply List.map_congr_left
      intro k hk
      rw [List.mem_reverse, List.mem_range] at hk
      rw [List.take_append_of_le_length (by omega)]

theorem IsNormal.selfAndAncestors_eq {path : TreePath} (h : path.IsNormal) :
    path.selfAndAncestors = (List.range (path.depth + 1)).reverse.map path.ancestorAt := by
  have hchain := selfAndAncestors_ofComponents (ne_nil_of_isName h.isName)
  rwa [h.ofComponents_components] at hchain

theorem IsNormal.nearestDirectory_eq {path : TreePath} (h : path.IsNormal) (isDirectory : Bool) :
    path.nearestDirectory isDirectory = ofComponents (path.directoryNames isDirectory) := by
  obtain ⟨names, hnames, rfl⟩ := h.exists_names
  unfold nearestDirectory directoryNames
  rw [components_ofComponents (ne_nil_of_isName hnames)]
  split
  · rfl
  · cases names using List.reverseRecOn with
    | nil => rfl
    | append_singleton front name =>
      have hname : name ≠ [] := (hnames name (by simp)).1
      rw [parent?_ofComponents_concat front hname, List.dropLast_concat]
      rfl

theorem directoryNames_eq_take (path : TreePath) (isDirectory : Bool) :
    path.directoryNames isDirectory =
      path.components.take (path.directoryNames isDirectory).length := by
  unfold directoryNames
  split
  · rw [List.take_length]
  · rw [List.length_dropLast, List.dropLast_eq_take]

theorem length_directoryNames_le (path : TreePath) (isDirectory : Bool) :
    (path.directoryNames isDirectory).length ≤ path.depth := by
  unfold directoryNames depth
  split
  · exact Nat.le_refl _
  · rw [List.length_dropLast]
    exact Nat.sub_le _ _

theorem depth_le_length_directoryNames (path : TreePath) (isDirectory : Bool) :
    path.depth ≤ (path.directoryNames isDirectory).length + 1 := by
  unfold directoryNames depth
  split
  · exact Nat.le_succ _
  · rw [List.length_dropLast]
    omega

/-- The directories of a lineage are those that prefixes of the names lead to. -/
theorem IsNormal.lineage_eq {path : TreePath} (h : path.IsNormal) (isDirectory : Bool)
    (metadataName : Text) :
    path.lineage isDirectory metadataName =
      (List.range ((path.directoryNames isDirectory).length + 1)).reverse.map
        (path.ancestor metadataName) := by
  have hmem : ∀ name ∈ path.directoryNames isDirectory, name ≠ [] := by
    rw [directoryNames_eq_take]
    intro name hname
    exact (h.isName name (List.mem_of_mem_take hname)).1
  rw [lineage_eq_map, h.nearestDirectory_eq, selfAndAncestors_ofComponents hmem, List.map_map]
  apply List.map_congr_left
  intro k hk
  rw [List.mem_reverse, List.mem_range] at hk
  have htake : (path.directoryNames isDirectory).take k = path.components.take k := by
    rw [directoryNames_eq_take, List.take_take, Nat.min_eq_left (by omega)]
  have hancestor : ofComponents ((path.directoryNames isDirectory).take k) = path.ancestorAt k := by
    rw [htake, ancestorAt]
  simp only [Function.comp_apply, hancestor, isMetadata_ancestorAt h, relativeTo?_ancestorAt h,
    Option.getD_some, ancestor]

theorem IsNormal.mem_lineage {path : TreePath} (h : path.IsNormal) {isDirectory : Bool}
    {metadataName : Text} {directory : TreePath}
    (hmem : directory ∈ (path.lineage isDirectory metadataName).map Ancestor.path) :
    ∃ k, k ≤ path.depth ∧ path.ancestorAt k = directory := by
  rw [h.lineage_eq, List.map_map] at hmem
  obtain ⟨k, hk, rfl⟩ := List.mem_map.1 hmem
  rw [List.mem_reverse, List.mem_range] at hk
  exact ⟨k, Nat.le_trans (Nat.le_of_lt_succ hk) (path.length_directoryNames_le isDirectory), rfl⟩

/-- Nothing is seen of a path from itself, but something from every other directory that it lies
in. -/
theorem IsNormal.relativeTo?_isEmpty {path : TreePath} (h : path.IsNormal) {k : Nat}
    (hk : k ≤ path.depth) :
    ((path.relativeTo? (path.ancestorAt k)).getD []).isEmpty =
      decide (path.ancestorAt k = path) := by
  have hself : path.ancestorAt k = path ↔ path.depth ≤ k := by
    conv_lhs => rhs; rw [← h.ancestorAt_depth]
    rw [h.ancestorAt_inj hk (Nat.le_refl _)]
    omega
  rw [relativeTo?_ancestorAt h, Option.getD_some, Bool.eq_iff_iff, List.isEmpty_iff,
    h.viewFrom_eq_nil_iff, decide_eq_true_iff, hself]

end PathIgnore.TreePath
