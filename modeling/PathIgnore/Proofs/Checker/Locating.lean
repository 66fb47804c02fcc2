import PathIgnore.Checker
import PathIgnore.Proofs.TreePath.Native

/-!
# Locating candidates

A candidate names the same place in the tree whether it is given relative to the root of the tree or
joined to it. Main statement: this, that a place is found back from its native path, and that only a
candidate that does not start with the components of the root lies outside (`locate_below_root`).
-/

namespace PathIgnore.Checker

open NativePath (stepsOf)

variable {checker : Checker} {candidate : NativePath}

theorem locate_of_not_isAbsolute (h : candidate.isAbsolute = false) :
    checker.locate candidate = TreePath.ofNative candidate := by
  rw [locate, h, if_neg Bool.false_ne_true]

/-- An absolute candidate is located by what is left once the components of the root are dropped. -/
theorem locate_of_isAbsolute (hroot : checker.root.isAbsolute = true)
    (h : candidate.isAbsolute = true) :
    checker.locate candidate =
      match NativePath.dropComponents (NativePath.componentsOf checker.root.pieces.tail)
          candidate.pieces.tail with
      | some rest => TreePath.ofNative (.ofPiecesTrimmed rest)
      | none => .error (.outsideRoot candidate.toText checker.root.toText) := by
  rw [locate, h, if_pos rfl, NativePath.below?, NativePath.components_of_isAbsolute hroot]
  simp only
  cases NativePath.dropComponents (NativePath.componentsOf checker.root.pieces.tail)
    candidate.pieces.tail <;> rfl

/-- A candidate that leads on from the root is located by its further steps. -/
theorem exists_locate_eq_ofNative (hroot : checker.root.isAbsolute = true)
    (h : candidate.isAbsolute = true) {steps : List (List UInt8)}
    (hsteps : stepsOf candidate.pieces = stepsOf checker.root.pieces ++ steps) :
    ∃ below : NativePath, checker.locate candidate = TreePath.ofNative below ∧
      below.isAbsolute = false ∧ stepsOf below.pieces = steps := by
  have hcomponents : NativePath.componentsOf candidate.pieces.tail =
      NativePath.componentsOf checker.root.pieces.tail ++ steps.map NativePath.componentOf := by
    simp only [NativePath.componentsOf_eq_map, NativePath.stepsOf_tail hroot,
      NativePath.stepsOf_tail h, hsteps, List.map_append]
  have hsome : (NativePath.dropComponents (NativePath.componentsOf checker.root.pieces.tail)
      candidate.pieces.tail).isSome = true :=
    NativePath.isSome_dropComponents_iff.2 ⟨_, hcomponents.symm⟩
  obtain ⟨rest, hrest⟩ := Option.isSome_iff_exists.1 hsome
  obtain ⟨hdropped, hsuffix⟩ := NativePath.dropComponents_eq_some hrest
  have hleft : stepsOf rest = steps := by
    rw [hcomponents, List.append_cancel_left_eq] at hdropped
    exact (List.map_injective_iff.2 NativePath.componentOf_injective hdropped).symm
  have hslash : ∀ piece ∈ rest, NativePath.slash ∉ piece := fun piece hpiece =>
    not_mem_of_mem_splitOn (List.mem_of_mem_tail (hsuffix.subset hpiece))
  obtain ⟨hrelative, htrimmed⟩ := NativePath.isRelative_ofPiecesTrimmed hslash
  refine ⟨.ofPiecesTrimmed rest, ?_, hrelative, htrimmed.trans hleft⟩
  rw [locate_of_isAbsolute hroot h, hrest]

theorem locate_join (hroot : checker.root.isAbsolute = true) (h : candidate.isAbsolute = false) :
    ∃ below : NativePath, checker.locate (checker.root.join candidate) = TreePath.ofNative below ∧
      below.isAbsolute = false ∧ stepsOf below.pieces = stepsOf candidate.pieces :=
  exists_locate_eq_ofNative hroot (NativePath.isAbsolute_join hroot)
    (NativePath.stepsOf_join hroot h)

theorem locate_toNative (hroot : checker.root.isAbsolute = true) {path : TreePath}
    (h : path.IsNormal) : checker.locate (path.toNative checker.root) = .ok path := by
  obtain ⟨habsolute, hsteps⟩ := h.stepsOf_toNative hroot
  obtain ⟨below, hlocate, hrelative, hleft⟩ := exists_locate_eq_ofNative hroot habsolute hsteps
  rw [hlocate, h.ofNative_eq_ok hrelative hleft]

theorem locate_eq_outsideRoot_iff (hroot : checker.root.isAbsolute = true)
    (h : candidate.isAbsolute = true) {path root : Text} :
    checker.locate candidate = .error (.outsideRoot path root) ↔
      ¬checker.root.components <+: candidate.components ∧ path = candidate.toText ∧
        root = checker.root.toText := by
  rw [locate_of_isAbsolute hroot h, NativePath.components_of_isAbsolute hroot,
    NativePath.components_of_isAbsolute h, List.cons_prefix_cons, and_iff_right rfl,
    ← NativePath.isSome_dropComponents_iff]
  cases NativePath.dropComponents (NativePath.componentsOf checker.root.pieces.tail)
    candidate.pieces.tail with
  | none => simp [eq_comm]
  | some rest => simp [TreePath.ofNative_ne_outsideRoot]

/-- If the tree stands at an absolute path, a relative candidate and the same candidate joined to
that path name the same place, or both climb with `..`; a place is found back from its native path;
and an absolute candidate lies outside the tree just if it does not start with the components of
that path. -/
theorem locate_below_root (hroot : checker.root.isAbsolute = true) :
    (∀ candidate : NativePath, candidate.isAbsolute = false →
      (.up ∉ candidate.components ∧ ∃ path, checker.locate candidate = .ok path ∧
          checker.locate (checker.root.join candidate) = .ok path) ∨
        (.up ∈ candidate.components ∧
          checker.locate candidate = .error (.parentTraversal candidate.toText) ∧
          ∃ left, checker.locate (checker.root.join candidate) =
            .error (.parentTraversal left))) ∧
      (∀ path : TreePath, path.IsNormal →
        checker.locate (path.toNative checker.root) = .ok path) ∧
      ∀ candidate : NativePath, candidate.isAbsolute = true → ∀ path root,
        (checker.locate candidate = .error (.outsideRoot path root) ↔
          ¬checker.root.components <+: candidate.components ∧ path = candidate.toText ∧
            root = checker.root.toText) := by
  refine ⟨?_, fun path => locate_toNative hroot,
    fun candidate h path root => locate_eq_outsideRoot_iff hroot h⟩
  intro candidate h
  obtain ⟨below, hlocate, hrelative, hsteps⟩ := locate_join hroot h
  rw [hlocate, locate_of_not_isAbsolute h, TreePath.ofNative_eq below,
    TreePath.ofNative_eq candidate, hrelative, h, hsteps, NativePath.up_mem_components_iff]
  by_cases hup : [NativePath.dot, NativePath.dot] ∈ stepsOf candidate.pieces
  · exact .inr ⟨hup, by simp [hup], below.toText, by simp [hup]⟩
  · exact .inl ⟨hup, .ofComponents ((stepsOf candidate.pieces).map Utf8.decode), by simp [hup]⟩

/-- The root of the tree is written with `.`, `..` and more slashes than needed, and the candidates
start with `.` and hold a broken byte. -/
theorem locate_below_dotted_root :
    let checker := Checker.new (.ofText "/r/.//s/../".toList) ⟨".git".toList, true⟩
    let candidate : NativePath := ⟨Utf8.encode "./a//".toList ++ [0xFF, 0x2F, 0x2E]⟩
    let path := TreePath.ofComponents [['a'], ['\uFFFD']]
    checker.root.isAbsolute = true ∧ candidate.isAbsolute = false ∧
      checker.locate candidate = .ok path ∧
      checker.locate (checker.root.join candidate) = .ok path ∧
      path.IsNormal ∧ checker.locate (path.toNative checker.root) = .ok path ∧
      checker.locate (.ofText "/r/a".toList) =
        .error (.outsideRoot "/r/a".toList "/r/.//s/../".toList) := by
  intro checker candidate path
  have hroot : checker.root.isAbsolute = true := by decide
  have hcandidate : candidate.isAbsolute = false := by decide
  have hpath : path.IsNormal := by decide
  obtain ⟨hjoin, hnative, houtside⟩ := locate_below_root hroot
  have hlocate : checker.locate candidate = .ok path := by decide
  have hjoined : checker.locate (checker.root.join candidate) = .ok path := by
    rcases hjoin candidate hcandidate with ⟨-, other, hother, hsame⟩ | ⟨hup, -⟩
    · rw [hlocate] at hother
      rw [hsame, hother]
    · revert hup
      decide
  refine ⟨hroot, hcandidate, hlocate, hjoined, hpath, hnative path hpath, ?_⟩
  exact (houtside (.ofText "/r/a".toList) (by decide) _ _).2 ⟨by decide, by decide, by decide⟩

end PathIgnore.Checker
