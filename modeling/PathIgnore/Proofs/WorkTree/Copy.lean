import Mathlib.Data.List.Dedup
import PathIgnore.Proofs.MemoryTree.Directories
import PathIgnore.Proofs.WorkTree.Reading

/-!
# Trees in memory that hold what a disk holds

A tree in memory mirrors a disk if it has the same directories and files, and for each regular rule
file its decoded text. There is one for every disk: it is built from the names of everything on the
disk, one after the other (`mirrors_inMemory`).
-/

namespace PathIgnore

/-! ## Everything that stands on a disk -/

namespace Entry

mutual

/-- The names that lead from an entry to itself and to all that stands in it. -/
def listing : Entry → List (List (List UInt8))
  | .file _ => [[]]
  | .directory entries => [] :: listingOf entries

/-- The names that lead to all that stands in a directory. -/
def listingOf : List (List UInt8 × Entry) → List (List (List UInt8))
  | [] => []
  | (name, entry) :: rest => (listing entry).map (name :: ·) ++ listingOf rest

end

theorem mem_listingOf {entries : List (List UInt8 × Entry)} {name : List UInt8} {inner : Entry}
    (hlookup : entries.lookup name = some inner) {names : List (List UInt8)}
    (hnames : names ∈ inner.listing) : name :: names ∈ listingOf entries := by
  induction entries with
  | nil => cases hlookup
  | cons first rest ih =>
    obtain ⟨other, entry⟩ := first
    rw [listingOf, List.mem_append]
    rw [List.lookup_cons] at hlookup
    cases hother : name == other with
    | true =>
      rw [hother] at hlookup
      cases hlookup
      rw [eq_of_beq hother]
      exact .inl (List.mem_map_of_mem hnames)
    | false =>
      rw [hother] at hlookup
      exact .inr (ih hlookup)

theorem mem_listing {names : List (List UInt8)} {entry : Entry} (h : (at? names entry).isSome) :
    names ∈ entry.listing := by
  induction names generalizing entry with
  | nil => cases entry <;> exact List.mem_cons_self
  | cons name rest ih =>
    rw [at?_cons] at h
    cases hlookup : entry.entries.lookup name with
    | none =>
      rw [hlookup] at h
      cases h
    | some inner =>
      rw [hlookup, Option.bind_some] at h
      rw [eq_directory_of_lookup hlookup, listing]
      exact List.mem_cons_of_mem _ (mem_listingOf hlookup (ih h))

end Entry

namespace Disk

/-- The paths of everything on the disk that can be named in a tree. -/
def treePaths (disk : Disk) : List TreePath :=
  (((Entry.directory disk.entries).listing.map fun names =>
    TreePath.ofComponents (names.map Utf8.decode)).filter fun path => path.IsNormal).dedup

theorem isNormal_of_mem_treePaths {disk : Disk} {path : TreePath} (h : path ∈ disk.treePaths) :
    path.IsNormal := by
  have hfilter := (List.mem_filter.1 (List.mem_dedup.1 h)).2
  simpa using hfilter

theorem mem_treePaths {disk : Disk} {path : TreePath} (h : path.IsNormal)
    (hsome : (disk.get? path.nativeNames).isSome) : path ∈ disk.treePaths := by
  rw [get?_eq_at?] at hsome
  refine List.mem_dedup.2 (List.mem_filter.2 ⟨List.mem_map.2 ⟨_, Entry.mem_listing hsome, ?_⟩, ?_⟩)
  · rw [TreePath.map_decode_nativeNames, h.ofComponents_components]
  · simpa using h

/-- Whether a directory stands under the names of a path. -/
def HasDirectory (disk : Disk) (path : TreePath) : Prop :=
  (disk.get? path.nativeNames).any Entry.isDirectory = true

/-- Whether a file stands under the names of a path. -/
def HasFile (disk : Disk) (path : TreePath) : Prop :=
  ((disk.get? path.nativeNames).bind Entry.data?).isSome = true

/-- The text of the regular rule file of a directory. -/
def ruleText? (disk : Disk) (directory : TreePath) : Option Text :=
  ((disk.get? (directory.nativeNames ++ [WorkTree.ruleFileBytes])).bind Entry.data?).map Utf8.decode

section

variable {disk : Disk} {path : TreePath}

theorem hasDirectory_iff :
    disk.HasDirectory path ↔ ∃ entries, disk.get? path.nativeNames = some (.directory entries) := by
  unfold HasDirectory
  rcases disk.get? path.nativeNames with _ | _ | _ <;> simp [Entry.isDirectory]

theorem hasFile_iff :
    disk.HasFile path ↔ ∃ data, disk.get? path.nativeNames = some (.file data) := by
  unfold HasFile
  rcases disk.get? path.nativeNames with _ | _ | _ <;> simp [Entry.data?]

/-- A rule file stands in a directory. -/
theorem ruleText?_eq_none (h : ¬disk.HasDirectory path) : disk.ruleText? path = none := by
  unfold ruleText?
  cases hrule : disk.get? (path.nativeNames ++ [WorkTree.ruleFileBytes]) with
  | none => rfl
  | some entry =>
    have hsome := Option.isSome_of_eq_some hrule
    have hdirectory := exists_directory_of_get?_append (List.cons_ne_nil _ _) hsome
    exact absurd (hasDirectory_iff.2 hdirectory) h

/-- The directories that a directory lies in stand on the disk, too. -/
theorem HasDirectory.of_mem_selfAndAncestors (h : disk.HasDirectory path) (hpath : path.IsNormal)
    {above : TreePath} (habove : above ∈ path.selfAndAncestors) : disk.HasDirectory above := by
  obtain ⟨entries, hget⟩ := hasDirectory_iff.1 h
  rw [hpath.selfAndAncestors_eq] at habove
  obtain ⟨k, -, rfl⟩ := List.mem_map.1 habove
  have hnames : (path.ancestorAt k).nativeNames = path.nativeNames.take k := by
    rw [TreePath.nativeNames, hpath.components_ancestorAt, List.map_take, TreePath.nativeNames]
  rw [hasDirectory_iff, hnames]
  rw [← List.take_append_drop k path.nativeNames] at hget
  cases hrest : path.nativeNames.drop k with
  | nil => exact ⟨entries, by rwa [hrest, List.append_nil] at hget⟩
  | cons name rest =>
    refine exists_directory_of_get?_append (List.cons_ne_nil name rest) ?_
    exact Option.isSome_of_eq_some (hrest ▸ hget)

/-- What a file lies in is a directory. -/
theorem HasFile.parent (h : disk.HasFile path) (hpath : path.IsNormal) {parent : TreePath}
    (hparent : path.parent? = some parent) : disk.HasDirectory parent ∧ parent.IsNormal := by
  obtain ⟨hnormal, name, hname, -, rfl⟩ := hpath.of_parent? hparent
  refine ⟨?_, hnormal⟩
  obtain ⟨data, hget⟩ := hasFile_iff.1 h
  rw [TreePath.nativeNames, hnormal.components_join hname, List.map_append] at hget
  rw [hasDirectory_iff]
  exact exists_directory_of_get?_append (List.cons_ne_nil _ _) (Option.isSome_of_eq_some hget)

end

end Disk

namespace MemoryTree

open Disk (hasDirectory_iff hasFile_iff)

/-- Whether the tree holds what the disk holds. -/
structure Mirrors (tree : MemoryTree) (disk : Disk) : Prop where
  directories : ∀ path : TreePath, path.IsNormal →
    (tree.isDirectory path = true ↔ disk.HasDirectory path)
  files : ∀ path : TreePath, path.IsNormal → (tree.isFile path = true ↔ disk.HasFile path)
  ruleFiles : ∀ directory : TreePath, directory.IsNormal →
    tree.ruleFile? directory = disk.ruleText? directory
  readable : ∀ directory : TreePath, directory.IsNormal →
    tree.unreadable.contains directory = false

/-! ## Building the copy -/

/-- The tree with what a disk holds under the names of a path. -/
def addFrom (disk : Disk) (tree : MemoryTree) (path : TreePath) : MemoryTree :=
  match disk.get? path.nativeNames with
  | some (.directory _) =>
    match disk.ruleText? path with
    | some text => tree.addRuleFile path text
    | none => tree.addDirectory path
  | some (.file _) => tree.addFile path
  | none => tree

/-- The tree in memory with all that a disk holds. -/
def ofDisk (disk : Disk) : MemoryTree :=
  disk.treePaths.foldl (addFrom disk) .empty

/-- Whether the tree holds what the disk holds at some paths, and nothing else but the directories
that lead to them. -/
structure HoldsAt (tree : MemoryTree) (disk : Disk) (paths : List TreePath) : Prop where
  directories : ∀ path ∈ paths, disk.HasDirectory path → tree.directories.contains path
  known : ∀ path, tree.directories.contains path → disk.HasDirectory path
  files : ∀ path, tree.files.contains path ↔ path ∈ paths ∧ disk.HasFile path
  ruleFiles : ∀ path, tree.ruleFile? path = if path ∈ paths then disk.ruleText? path else none
  readable : ∀ path, tree.unreadable.contains path = false

section

variable {tree : MemoryTree} {disk : Disk} {paths : List TreePath} {path : TreePath}

/-- With a directory of the disk come only directories of the disk. -/
theorem HoldsAt.known_addDirectory (h : tree.HoldsAt disk paths) (hpath : path.IsNormal)
    (hdirectory : disk.HasDirectory path) {other : TreePath}
    (hother : (tree.addDirectory path).directories.contains other) : disk.HasDirectory other := by
  rcases contains_of_contains_addDirectories hother with hknown | habove
  · exact h.known other hknown
  · exact hdirectory.of_mem_selfAndAncestors hpath habove

theorem ruleFile?_addRuleFile_self {text : Text} (h : tree.ruleFile? path = none) :
    (tree.addRuleFile path text).ruleFile? path = some text := by
  have hnone : tree.ruleFiles[path]? = none := Option.map_eq_none_iff.1 h
  unfold ruleFile? addRuleFile
  simp only [addDirectory, getElem?_appendRuleFile_self, hnone, Option.getD_none, Option.map_some,
    textOfWritten_singleton]

theorem ruleFile?_addRuleFile_of_ne {other : TreePath} (h : other ≠ path) (text : Text) :
    (tree.addRuleFile path text).ruleFile? other = tree.ruleFile? other := by
  unfold ruleFile? addRuleFile
  simp only [addDirectory, getElem?_appendRuleFile_of_ne h]

/-- One more path at which nothing new is held but, perhaps, a rule file. -/
theorem HoldsAt.cons {changed : MemoryTree} (h : tree.HoldsAt disk paths)
    (hself : disk.HasDirectory path → changed.directories.contains path)
    (hkeep : ∀ other, tree.directories.contains other → changed.directories.contains other)
    (hknown : ∀ other, changed.directories.contains other → disk.HasDirectory other)
    (hfiles : ∀ other, changed.files.contains other ↔
      tree.files.contains other ∨ other = path ∧ disk.HasFile path)
    (hrules : changed.ruleFile? path = disk.ruleText? path)
    (hothers : ∀ other, other ≠ path → changed.ruleFile? other = tree.ruleFile? other)
    (hreadable : changed.unreadable = tree.unreadable) :
    changed.HoldsAt disk (path :: paths) where
  directories other hmem hdirectory := by
    rcases List.mem_cons.1 hmem with rfl | hmem
    · exact hself hdirectory
    · exact hkeep other (h.directories other hmem hdirectory)
  known := hknown
  files other := by
    rw [hfiles, h.files, List.mem_cons]
    constructor
    · rintro (⟨hmem, hfile⟩ | ⟨rfl, hfile⟩)
      · exact ⟨.inr hmem, hfile⟩
      · exact ⟨.inl rfl, hfile⟩
    · rintro ⟨rfl | hmem, hfile⟩
      · exact .inr ⟨rfl, hfile⟩
      · exact .inl ⟨hmem, hfile⟩
  ruleFiles other := by
    rcases eq_or_ne other path with rfl | hne
    · rw [if_pos List.mem_cons_self, hrules]
    · rw [hothers other hne, h.ruleFiles other]
      simp [hne]
  readable other := by rw [hreadable, h.readable]

theorem HoldsAt.addFrom (h : tree.HoldsAt disk paths) (hpath : path.IsNormal)
    (hnew : path ∉ paths) : (tree.addFrom disk path).HoldsAt disk (path :: paths) := by
  have hnone : tree.ruleFile? path = none := by rw [h.ruleFiles, if_neg hnew]
  unfold MemoryTree.addFrom
  cases hget : disk.get? path.nativeNames with
  | none =>
    have hdirectory : ¬disk.HasDirectory path := by simp [hasDirectory_iff, hget]
    have hfile : ¬disk.HasFile path := by simp [hasFile_iff, hget]
    exact h.cons (absurd · hdirectory) (fun _ => id) h.known (by simp [hfile])
      (hnone.trans (Disk.ruleText?_eq_none hdirectory).symm) (fun _ _ => rfl) rfl
  | some entry =>
    cases entry with
    | file data =>
      have hdirectory : ¬disk.HasDirectory path := by simp [hasDirectory_iff, hget]
      have hfile : disk.HasFile path := hasFile_iff.2 ⟨data, hget⟩
      have hrule := hnone.trans (Disk.ruleText?_eq_none hdirectory).symm
      have hinsert : ∀ other, (tree.files.insert path).contains other ↔
          tree.files.contains other ∨ other = path ∧ disk.HasFile path := by
        intro other
        rw [Std.HashSet.contains_insert, Bool.or_eq_true, beq_iff_eq, and_iff_left hfile, or_comm,
          @eq_comm TreePath]
      simp only [addFile]
      cases hparent : path.parent? with
      | none =>
        exact h.cons (absurd · hdirectory) (fun _ => id) h.known hinsert hrule (fun _ _ => rfl) rfl
      | some parent =>
        obtain ⟨habove, hnormal⟩ := hfile.parent hpath hparent
        exact h.cons (absurd · hdirectory) (fun _ => contains_addDirectory_of_contains)
          (fun _ => h.known_addDirectory hnormal habove) hinsert hrule (fun _ _ => rfl) rfl
    | directory entries =>
      have hdirectory : disk.HasDirectory path := hasDirectory_iff.2 ⟨entries, hget⟩
      have hfile : ¬disk.HasFile path := by simp [hasFile_iff, hget]
      simp only
      cases hrule : disk.ruleText? path with
      | none =>
        exact h.cons (fun _ => contains_addDirectory_self tree path)
          (fun _ => contains_addDirectory_of_contains)
          (fun _ => h.known_addDirectory hpath hdirectory) (by simp [hfile, addDirectory])
          (hnone.trans hrule.symm) (fun _ _ => rfl) rfl
      | some text =>
        exact h.cons (fun _ => contains_addDirectory_self tree path)
          (fun _ => contains_addDirectory_of_contains)
          (fun _ => h.known_addDirectory hpath hdirectory)
          (by simp [hfile, addRuleFile, addDirectory])
          ((ruleFile?_addRuleFile_self hnone).trans hrule.symm)
          (fun _ hne => ruleFile?_addRuleFile_of_ne hne text) rfl

theorem holdsAt_empty (disk : Disk) : empty.HoldsAt disk [] where
  directories := nofun
  known path hpath := by simp [empty] at hpath
  files path := by simp [empty]
  ruleFiles path := by simp [empty, ruleFile?]
  readable path := by simp [empty]

theorem holdsAt_foldl (h : tree.HoldsAt disk paths) {more : List TreePath}
    (hmore : ∀ path ∈ more, path.IsNormal) (hnodup : (more.reverse ++ paths).Nodup) :
    (more.foldl (addFrom disk) tree).HoldsAt disk (more.reverse ++ paths) := by
  induction more generalizing tree paths with
  | nil => exact h
  | cons path rest ih =>
    rw [List.reverse_cons, List.append_assoc, List.singleton_append] at hnodup ⊢
    have hnew : path ∉ paths := (List.nodup_cons.1 (List.nodup_append.1 hnodup).2.1).1
    exact ih (h.addFrom (hmore path List.mem_cons_self) hnew)
      (fun other hmem => hmore other (List.mem_cons_of_mem path hmem)) hnodup

end

/-- What a disk holds can be held in memory. -/
theorem mirrors_ofDisk (disk : Disk) : (ofDisk disk).Mirrors disk := by
  -- Each path is added once, so no rule file is written twice.
  have hnodup : (disk.treePaths.reverse ++ []).Nodup := by
    rw [List.append_nil, List.nodup_reverse]
    exact List.nodup_dedup _
  have h : (ofDisk disk).HoldsAt disk (disk.treePaths.reverse ++ []) :=
    holdsAt_foldl (holdsAt_empty disk) (fun _ => Disk.isNormal_of_mem_treePaths) hnodup
  rw [List.append_nil] at h
  have hmem : ∀ {path : TreePath} {entry : Entry}, path.IsNormal →
      disk.get? path.nativeNames = some entry → path ∈ disk.treePaths.reverse :=
    fun hpath hget =>
      List.mem_reverse.2 (Disk.mem_treePaths hpath (Option.isSome_of_eq_some hget))
  refine ⟨fun path hpath => ⟨fun hcontains => ?_, fun hdirectory => ?_⟩,
    fun path hpath => ?_, fun directory hpath => ?_, fun directory _ => h.readable directory⟩
  · rcases Bool.or_eq_true_iff.1 hcontains with hroot | hcontains
    · rw [TreePath.isRoot_eq_true_iff.1 hroot]
      rfl
    · exact h.known path hcontains
  · obtain ⟨entries, hget⟩ := hasDirectory_iff.1 hdirectory
    exact Bool.or_eq_true_iff.2 (.inr (h.directories path (hmem hpath hget) hdirectory))
  · rw [isFile, h.files, and_iff_right_iff_imp]
    intro hfile
    obtain ⟨data, hget⟩ := hasFile_iff.1 hfile
    exact hmem hpath hget
  · rw [h.ruleFiles]
    split
    · rfl
    · rename_i hnot
      refine (Disk.ruleText?_eq_none fun hdirectory => hnot ?_).symm
      obtain ⟨entries, hget⟩ := hasDirectory_iff.1 hdirectory
      exact hmem hpath hget

end MemoryTree

end PathIgnore
