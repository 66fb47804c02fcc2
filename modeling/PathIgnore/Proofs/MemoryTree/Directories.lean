import PathIgnore.Proofs.MemoryTree.Building
import PathIgnore.Proofs.TreePath.PrefixOrder

/-!
# Directories of a tree in memory

Adding a directory stops at the first one that is known. This is right as long as the directories
that lead to a known one are known, too (`IsClosed`), which every change keeps
(`IsClosed.add`). Main statement: a tree that was built knows just the directories that what was
added equals or lies in (`isDirectory_build_iff`).
-/

namespace PathIgnore.MemoryTree

open TreePath (selfAndAncestors_of_parent?_eq_some parentInduction)

variable {known : Std.HashSet TreePath} {tree : MemoryTree} {path directory : TreePath}

/-! ## Adding directories -/

theorem contains_of_contains_addDirectories {more : List TreePath}
    (h : (addDirectories known more).contains path) : known.contains path ∨ path ∈ more := by
  induction more generalizing known with
  | nil => exact .inl h
  | cons next rest ih =>
    rw [addDirectories] at h
    split at h
    · exact .inl h
    · rcases ih h with hknown | hrest
      · rw [Std.HashSet.contains_insert, Bool.or_eq_true] at hknown
        rcases hknown with heq | hknown
        · exact .inr (by simp [eq_of_beq heq])
        · exact .inl hknown
      · exact .inr (List.mem_cons_of_mem next hrest)

theorem contains_addDirectories_head (known : Std.HashSet TreePath) (directory : TreePath)
    (more : List TreePath) : (addDirectories known (directory :: more)).contains directory := by
  rw [addDirectories]
  split
  · assumption
  · exact contains_addDirectories_of_contains (by simp) more

theorem contains_addDirectory_self (tree : MemoryTree) (directory : TreePath) :
    (tree.addDirectory directory).directories.contains directory := by
  obtain ⟨above, habove⟩ := List.head?_eq_some_iff.1 directory.head?_selfAndAncestors
  rw [addDirectory, habove]
  exact contains_addDirectories_head tree.directories directory above

theorem contains_addDirectory_of_contains {other : TreePath}
    (h : tree.directories.contains other) : (tree.addDirectory path).directories.contains other :=
  contains_addDirectories_of_contains h path.selfAndAncestors

/-- Whether the directories that lead to a known one are known, too. -/
def IsClosed (known : Std.HashSet TreePath) : Prop :=
  ∀ directory, known.contains directory → ∀ above ∈ directory.selfAndAncestors, known.contains above

/-- If the known directories on the way to a path are closed, stopping at the first of them leaves
none out. -/
theorem contains_addDirectories_of_mem
    (hclosed : ∀ directory ∈ path.selfAndAncestors, known.contains directory →
      ∀ above ∈ directory.selfAndAncestors, known.contains above)
    (hmem : directory ∈ path.selfAndAncestors) :
    (addDirectories known path.selfAndAncestors).contains directory := by
  induction path using parentInduction generalizing known with
  | top =>
    obtain rfl : directory = .root := by simpa using hmem
    exact contains_addDirectories_head known .root []
  | below path parent hparent ih =>
    have hway := selfAndAncestors_of_parent?_eq_some hparent
    rw [hway, addDirectories]
    split
    · rename_i hknown
      exact hclosed path (TreePath.mem_selfAndAncestors_self path) hknown directory hmem
    rw [hway, List.mem_cons] at hmem
    rcases hmem with rfl | hmem
    · exact contains_addDirectories_of_contains (by simp) _
    · refine ih (fun other hother hknown above habove => ?_) hmem
      -- The path is not on the way up from its parent, so what is known there was known before.
      have hne := TreePath.ne_of_mem_of_parent? hparent hother
      have hbefore : known.contains other := by simpa [hne.symm] using hknown
      have hmore := hclosed other (hway ▸ List.mem_cons_of_mem path hother) hbefore above habove
      simp only [Std.HashSet.contains_insert, hmore, Bool.or_true]

theorem IsClosed.contains_addDirectories_iff (h : IsClosed known) :
    (addDirectories known path.selfAndAncestors).contains directory ↔
      known.contains directory ∨ directory ∈ path.selfAndAncestors := by
  constructor
  · exact contains_of_contains_addDirectories
  · rintro (hknown | hmem)
    · exact contains_addDirectories_of_contains hknown _
    · exact contains_addDirectories_of_mem (fun other _ => h other) hmem

/-! ## Changes -/

/-- Whether the change adds something for which the path is a directory: the path is the directory
that is named, or what is named lies in the path. -/
def Change.MakesDirectory (path : TreePath) : Change → Prop
  | .ruleFile name _ | .directory name | .unreadable name =>
    ∃ place, TreePath.parse name = .ok place ∧ path.contains place = true
  | .file name => ∃ place, TreePath.parse name = .ok place ∧ place.LiesIn path
  | .reset => False

/-- The nearest directory that a change adds. -/
def Change.directory? (change : Change) : Option TreePath :=
  match change with
  | .file _ => change.place?.bind TreePath.parent?
  | _ => change.place?

variable {change : Change} {changes : List Change}

theorem directories_add (tree : MemoryTree) (change : Change) :
    (tree.add change).directories =
      match change.directory? with
      | some directory => addDirectories tree.directories directory.selfAndAncestors
      | none => tree.directories := by
  unfold add Change.directory?
  cases hplace : change.place? with
  | none => cases change <;> rfl
  | some place =>
    cases change with
    | reset => cases hplace
    | ruleFile | directory | unreadable => rfl
    | file name =>
      rw [Option.bind_some]
      simp only [addFile]
      cases place.parent? <;> rfl

/-- What a change makes a directory is on the way up from the nearest directory that it adds. -/
theorem Change.makesDirectory_iff :
    change.MakesDirectory path ↔
      ∃ directory, change.directory? = some directory ∧ path ∈ directory.selfAndAncestors := by
  cases change with
  | reset => simp [MakesDirectory, directory?, place?]
  | ruleFile name text | directory name | unreadable name =>
    simp only [MakesDirectory, directory?, place?, toOption_parse_eq_some_iff]
    refine exists_congr fun place => and_congr_right fun hread => ?_
    exact (TreePath.isNormal_of_parse hread).contains_iff_mem
  | file name =>
    simp only [MakesDirectory, directory?, place?, Option.bind_eq_some_iff,
      toOption_parse_eq_some_iff]
    constructor
    · rintro ⟨place, hread, hin⟩
      obtain ⟨parent, hparent, hmem⟩ :=
        (TreePath.isNormal_of_parse hread).liesIn_iff_mem_of_parent?.1 hin
      exact ⟨parent, ⟨place, hread, hparent⟩, hmem⟩
    · rintro ⟨parent, ⟨place, hread, hparent⟩, hmem⟩
      have hplace := TreePath.isNormal_of_parse hread
      exact ⟨place, hread, hplace.liesIn_iff_mem_of_parent?.2 ⟨parent, hparent, hmem⟩⟩

theorem Change.MakesDirectory.of_mem_selfAndAncestors (h : change.MakesDirectory path)
    (hmem : directory ∈ path.selfAndAncestors) : change.MakesDirectory directory := by
  rw [makesDirectory_iff] at h ⊢
  obtain ⟨nearest, hnearest, hpath⟩ := h
  exact ⟨nearest, hnearest, TreePath.mem_selfAndAncestors_trans hmem hpath⟩

/-- The step: a change adds just the directories that it makes. -/
theorem IsClosed.contains_add_iff (h : IsClosed tree.directories) :
    (tree.add change).directories.contains path ↔
      tree.directories.contains path ∨ change.MakesDirectory path := by
  rw [directories_add, Change.makesDirectory_iff]
  cases change.directory? with
  | none => simp
  | some directory => simp [h.contains_addDirectories_iff]

theorem IsClosed.add (h : IsClosed tree.directories) (change : Change) :
    IsClosed (tree.add change).directories := by
  intro directory hdirectory above habove
  rw [h.contains_add_iff] at hdirectory ⊢
  rcases hdirectory with hknown | hmakes
  · exact .inl (h directory hknown above habove)
  · exact .inr (hmakes.of_mem_selfAndAncestors habove)

theorem isClosed_empty : IsClosed empty.directories := by
  intro directory hdirectory
  simp [empty] at hdirectory

/-- The run: changes add the directories that one of them makes. -/
theorem isClosed_foldl_add (h : IsClosed tree.directories) (changes : List Change) :
    IsClosed (changes.foldl add tree).directories ∧ ∀ path,
      ((changes.foldl add tree).directories.contains path ↔
        tree.directories.contains path ∨ ∃ change ∈ changes, change.MakesDirectory path) := by
  induction changes generalizing tree with
  | nil => simp [h]
  | cons change rest ih =>
    obtain ⟨hclosed, hcontains⟩ := ih (h.add change)
    refine ⟨hclosed, fun path => (hcontains path).trans ?_⟩
    simp only [h.contains_add_iff, or_assoc, List.mem_cons, exists_eq_or_imp]

/-- Changes that name places build a tree. Its directories are the root and what the changes make
directories, so with a directory also its parent is one, and neither the order of the changes nor
how often one is made counts. -/
theorem isDirectory_build_iff (hplaces : ∀ change ∈ changes, change.place?.isSome) :
    ∃ tree, build changes = .ok tree ∧
      (∀ path, tree.isDirectory path = true ↔
        path = .root ∨ ∃ change ∈ changes, change.MakesDirectory path) ∧
      (∀ path parent, tree.isDirectory path = true → path.parent? = some parent →
        tree.isDirectory parent = true) ∧
      ∀ others : List Change, (∀ change, change ∈ others ↔ change ∈ changes) →
        ∃ same, build others = .ok same ∧
          ∀ path, same.isDirectory path = tree.isDirectory path := by
  have hbuilt : ∀ changes : List Change, ∀ path,
      (changes.foldl add .empty).isDirectory path = true ↔
        path = .root ∨ ∃ change ∈ changes, change.MakesDirectory path := by
    intro changes path
    have hcontains := (isClosed_foldl_add isClosed_empty changes).2 path
    rw [isDirectory, Bool.or_eq_true, TreePath.isRoot_eq_true_iff, hcontains]
    simp [empty]
  refine ⟨_, build_eq_ok hplaces, hbuilt changes, fun path parent hpath hparent => ?_,
    fun others hsame => ⟨_, build_eq_ok ?_, fun path => ?_⟩⟩
  · rw [hbuilt] at hpath ⊢
    rcases hpath with rfl | ⟨change, hchange, hmakes⟩
    · cases hparent
    · refine .inr ⟨change, hchange, hmakes.of_mem_selfAndAncestors ?_⟩
      rw [selfAndAncestors_of_parent?_eq_some hparent]
      exact List.mem_cons_of_mem path parent.mem_selfAndAncestors_self
  · exact fun change hchange => hplaces change ((hsame change).1 hchange)
  · rw [Bool.eq_iff_iff, hbuilt, hbuilt]
    simp only [hsame]

/-- A file below a directory that is known already adds what lies between the two. -/
theorem isDirectory_build_iff_between :
    let changes : List Change :=
      [.directory "a/b".toList, .file "a//b/c/f".toList, .unreadable "./d".toList]
    let between := TreePath.ofComponents [['a'], ['b'], ['c']]
    let file := TreePath.ofComponents [['a'], ['b'], ['c'], ['f']]
    (∀ change ∈ changes, change.place?.isSome) ∧
      ∃ tree, build changes = .ok tree ∧ tree.isDirectory between = true ∧
        tree.isDirectory (.ofComponents [['a'], ['b']]) = true ∧ tree.isDirectory file = false ∧
        ∃ same, build (changes.reverse ++ changes) = .ok same ∧
          ∀ path, same.isDirectory path = tree.isDirectory path := by
  intro changes between file
  have hplaces : ∀ change ∈ changes, change.place?.isSome := by decide
  obtain ⟨tree, htree, hiff, hparent, hsame⟩ := isDirectory_build_iff hplaces
  have hbetween : tree.isDirectory between = true := by
    refine (hiff between).2 (.inr ⟨.file "a//b/c/f".toList, by simp [changes], file, ?_⟩)
    exact ⟨by decide, by decide⟩
  have hnone : ∀ change ∈ changes, ∀ directory ∈ change.directory?,
      file ∉ directory.selfAndAncestors := by decide
  have hfile : tree.isDirectory file = false := by
    rw [Bool.eq_false_iff, Ne, hiff]
    rintro (hroot | ⟨change, hchange, hmakes⟩)
    · exact absurd hroot (by decide)
    · obtain ⟨directory, hdirectory, hmem⟩ := Change.makesDirectory_iff.1 hmakes
      exact hnone change hchange directory hdirectory hmem
  exact ⟨hplaces, tree, htree, hbetween, hparent between _ hbetween rfl, hfile,
    hsame _ (by simp)⟩

end PathIgnore.MemoryTree
