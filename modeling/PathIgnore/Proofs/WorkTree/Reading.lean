import PathIgnore.Proofs.Checker.Footprint
import PathIgnore.Proofs.Disk.Paths
import PathIgnore.Proofs.TreePath.Native
import PathIgnore.WorkTree

/-!
# What a work tree reads

A work tree that stands in the working directory turns the names of a path in normal form into the
names under which it looks on the disk (`toNative_here`). If everything on the disk can be found, it
sees what stands there, and whatever goes wrong otherwise is as if nothing stood there
(`isDirectory_here`, `visibleLines?_here`).
-/

namespace PathIgnore

namespace TreePath

open NativePath (IsPlain ofNames)

/-- The place of a path in the working directory. -/
theorem IsNormal.toNative_here {path : TreePath} (h : path.IsNormal) :
    path.toNative ⟨[NativePath.dot]⟩ = ofNames path.nativeNames := by
  rcases eq_or_ne path root with rfl | hroot
  · rfl
  have hstart : ∀ name ∈ ([] : List (List UInt8)), IsPlain name := nofun
  rw [h.toNative_eq_join hroot]
  exact NativePath.ofNames_join hstart h.isPlain (h.nativeNames_ne_nil hroot)

end TreePath

namespace WorkTree

open NativePath (IsPlain ofNames)

/-- The tree in the working directory. -/
def here : WorkTree := .ofRoot ⟨[NativePath.dot]⟩

/-- The name that rule files have on a disk. -/
def ruleFileBytes : List UInt8 := Utf8.encode defaultRuleFileName

theorem isPlain_ruleFileBytes : ∀ name ∈ [ruleFileBytes], IsPlain name := by
  unfold IsPlain
  decide

variable {directory path : TreePath} {disk : Disk}

theorem isPlain_ruleFile (h : directory.IsNormal) :
    ∀ name ∈ directory.nativeNames ++ [ruleFileBytes], IsPlain name := by
  intro name hname
  rcases List.mem_append.1 hname with hname | hname
  · exact h.isPlain name hname
  · exact isPlain_ruleFileBytes name hname

theorem ruleFilePath_here (h : directory.IsNormal) :
    here.ruleFilePath directory = ofNames (directory.nativeNames ++ [ruleFileBytes]) := by
  unfold ruleFilePath here ofRoot
  rw [h.toNative_here]
  exact NativePath.ofNames_join h.isPlain isPlain_ruleFileBytes (List.cons_ne_nil _ _)

/-- A path is a directory if one stands under its names. -/
theorem isDirectory_here (hdisk : disk.IsSound) (h : path.IsNormal) :
    (here.source disk).isDirectory path = (disk.get? path.nativeNames).any Entry.isDirectory := by
  have hnative : path.toNative here.root = ofNames path.nativeNames := h.toNative_here
  simp only [source, isDirectory]
  rw [hnative, Disk.isDirectory_eq, hdisk.found?_ofNames h.isPlain]

/-- The rule file that counts is the file under its name. If a directory stands there, or if the
name cannot be looked up, no rule file counts. -/
theorem visibleLines?_here (hdisk : disk.IsSound) (h : directory.IsNormal) :
    (here.source disk).visibleLines? directory =
      ((disk.get? (directory.nativeNames ++ [ruleFileBytes])).bind Entry.data?).map
        fun data => (Utf8.decode data).lines := by
  have hread := Disk.toOption_read disk (here.ruleFilePath directory)
  rw [ruleFilePath_here h, hdisk.found?_ofNames (isPlain_ruleFile h)] at hread
  rw [← hread, ← ruleFilePath_here h]
  simp only [Source.visibleLines?, Source.readLines?, source, linesAt]
  cases disk.read (here.ruleFilePath directory) with
  | ok data => rfl
  | error error => cases error <;> rfl

end WorkTree

end PathIgnore
