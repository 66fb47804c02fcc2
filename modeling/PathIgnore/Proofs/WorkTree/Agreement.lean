import PathIgnore.Proofs.Disk.Changes
import PathIgnore.Proofs.WorkTree.Copy

/-!
# On a disk or in memory

A checker decides about the tree in the working directory as about a tree in memory that holds the
same directories, files and rule texts. On the disk, a rule file may be a directory, or a name may
be too long to be looked up or lead through a file; in memory there is no rule file then, which
comes to the same.
-/

namespace PathIgnore

variable {disk : Disk} {tree : MemoryTree}

namespace MemoryTree

theorem Mirrors.isDirectory_eq (h : tree.Mirrors disk) (hdisk : disk.IsSound) {path : TreePath}
    (hpath : path.IsNormal) :
    (WorkTree.here.source disk).isDirectory path = tree.source.isDirectory path := by
  rw [WorkTree.isDirectory_here hdisk hpath, Bool.eq_iff_iff]
  exact (h.directories path hpath).symm

theorem Mirrors.visibleLines?_eq (h : tree.Mirrors disk) (hdisk : disk.IsSound)
    {directory : TreePath} (hdirectory : directory.IsNormal) :
    (WorkTree.here.source disk).visibleLines? directory = tree.source.visibleLines? directory := by
  have hmemory : tree.source.visibleLines? directory =
      (tree.ruleFile? directory).map Text.lines := by
    simp only [Source.visibleLines?, Source.readLines?, source, linesAt,
      h.readable directory hdirectory, Bool.false_eq_true, if_false]
    rfl
  rw [WorkTree.visibleLines?_here hdisk hdirectory, hmemory, h.ruleFiles directory hdirectory,
    Disk.ruleText?, Option.map_map]
  rfl

theorem Mirrors.judge_eq (h : tree.Mirrors disk) (hdisk : disk.IsSound) (metadataName : Text)
    {path : TreePath} (hpath : path.IsNormal) :
    (judge (WorkTree.here.source disk) metadataName path none).value =
      (judge tree.source metadataName path none).value := by
  refine (judge_none_congr hpath (h.isDirectory_eq hdisk hpath) ?_).1
  rintro directory ⟨hin, -⟩
  obtain ⟨k, -, rfl⟩ := hpath.liesIn_iff.1 hin
  exact h.visibleLines?_eq hdisk (TreePath.isNormal_ancestorAt hpath k)

end MemoryTree

/-- After any changes to a disk that held nothing, or only a metadata directory, what the disk holds
can be held in memory, and a checker decides about every path alike, whether it asks the tree on the
disk or one in memory that holds the same. -/
theorem resolve_here_eq_inMemory {start : Disk} (hstart : start = .empty ∨ start = .versioned)
    (changes : List Disk.Change) (root otherRoot : NativePath) (settings : Settings)
    {path : TreePath} (hpath : path.IsNormal) :
    let disk := start.applyAll changes
    (MemoryTree.ofDisk disk).Mirrors disk ∧ ∀ tree : MemoryTree, tree.Mirrors disk →
      ((Checker.new root settings).resolve (WorkTree.here.source disk) path).value =
        ((Checker.new otherRoot settings).resolve tree.source path).value := by
  intro disk
  have hdisk : disk.IsSound := by
    rcases hstart with rfl | rfl
    · exact Disk.isSound_empty.applyAll changes
    · exact Disk.isSound_versioned.applyAll changes
  refine ⟨MemoryTree.mirrors_ofDisk disk, fun tree htree => ?_⟩
  rw [resolve_new_value, resolve_new_value]
  exact htree.judge_eq hdisk settings.metadataName hpath

/-- Changes after which the rule files of `a` and of `a/b` cannot be read: the first is a directory,
and the second would stand in a file. -/
def unreadableChanges : List Disk.Change :=
  [.ruleFile (.ofText []) "/a/b/k".toList, .mkdir (.ofText "a/.gitignore".toList),
    .touch (.ofText "a/b".toList), .touch (.ofText "a/b/c".toList)]

/-- The rule file of the root decides about `a/b/k`, on the disk and in memory. -/
theorem resolve_unreadableChanges :
    let disk := Disk.versioned.applyAll unreadableChanges
    let source := WorkTree.here.source disk
    let tree := MemoryTree.ofDisk disk
    let path := TreePath.ofComponents [['a'], ['b'], ['k']]
    let checker := Checker.new ⟨[]⟩ ⟨".git".toList, false⟩
    source.linesAt (.ofComponents [['a']]) =
        .error ⟨.ofText "./a/.gitignore".toList, .isADirectory⟩ ∧
      source.linesAt (.ofComponents [['a'], ['b']]) =
        .error ⟨.ofText "./a/b/.gitignore".toList, .notADirectory⟩ ∧
      tree.Mirrors disk ∧ (checker.resolve tree.source path).value.directory = some .root ∧
      (checker.resolve source path).value = (checker.resolve tree.source path).value := by
  intro disk source tree path checker
  have hnormal : path.IsNormal := by decide
  obtain ⟨hmirrors, hagree⟩ := resolve_here_eq_inMemory (.inr rfl) unreadableChanges ⟨[]⟩ ⟨[]⟩
    ⟨".git".toList, false⟩ hnormal
  have hsame : (checker.resolve source path).value = (checker.resolve tree.source path).value :=
    hagree tree hmirrors
  refine ⟨rfl, rfl, hmirrors, ?_, hsame⟩
  have hrules : source.rulesAt (path.ancestorAt 0) = [⟨"a/b/k".toList, false, true, false,
      some ("a/b/k".toList.map Token.literal)⟩] := by decide
  have hcovers : Rule.covers ⟨"a/b/k".toList, false, true, false,
      some ("a/b/k".toList.map Token.literal)⟩ (path.viewFrom 0)
        (source.countsAsDirectory path) = true := by
    rw [Rule.covers_eq_any rfl]
    decide
  have hvalue : (checker.resolve source path).value = _ :=
    judge_value_of_decisionAt hnormal (by decide) (by decide)
      (decisionAt_of_singleton hrules hcovers) (by decide)
  rw [← hsame, hvalue]
  rfl

end PathIgnore
