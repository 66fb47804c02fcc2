import Mathlib.Data.List.Basic
import PathIgnore.Proofs.Checker.Climb
import PathIgnore.Proofs.TreePath.Ancestors

/-!
# The first opinion on the way up

Without a store, a checker decides about a path in normal form as the metadata directory says, or
else as the nearest directory says whose rules have an opinion. The directories are counted by the
names that lead to them, so the way up is a way down in numbers.
-/

namespace PathIgnore

/-- Whether the path counts as a directory. The root always does. -/
def Source.countsAsDirectory (source : Source) (path : TreePath) : Bool :=
  path.isRoot || source.isDirectory path

/-- What the rules of the directory at depth `k` decide about the path. -/
def Source.decisionAt (source : Source) (path : TreePath) (k : Nat) : Option Decision :=
  ((source.rulesAt (path.ancestorAt k)).lastMatch? (path.viewFrom k)
    (source.countsAsDirectory path)).map (.byRule (path.ancestorAt k))

theorem findSome?_reverse_range_eq_some_iff {α : Type} {n : Nat} {f : Nat → Option α} {a : α} :
    (List.range n).reverse.findSome? f = some a ↔
      ∃ k < n, f k = some a ∧ ∀ l, k < l → l < n → f l = none := by
  -- The greatest number is asked first, and the others as before.
  induction n with
  | zero => simp
  | succ n ih =>
    rw [List.range_succ, List.reverse_concat, List.findSome?_cons]
    cases hn : f n with
    | some b =>
      rw [Option.some_inj]
      constructor
      · rintro rfl
        exact ⟨n, Nat.lt_succ_self n, hn, fun l hl hlt => absurd hl (by omega)⟩
      · rintro ⟨k, hk, hfk, hafter⟩
        rcases Nat.lt_or_ge k n with hlt | hge
        · rw [hafter n hlt (Nat.lt_succ_self n)] at hn
          cases hn
        · obtain rfl : k = n := by omega
          rw [hn] at hfk
          exact Option.some.inj hfk
    | none =>
      simp only [ih]
      constructor
      · rintro ⟨k, hk, hfk, hafter⟩
        refine ⟨k, by omega, hfk, ?_⟩
        intro l hl hlt
        rcases Nat.lt_or_ge l n with h | h
        · exact hafter l hl h
        · obtain rfl : l = n := by omega
          exact hn
      · rintro ⟨k, hk, hfk, hafter⟩
        refine ⟨k, ?_, hfk, fun l hl hlt => hafter l hl (by omega)⟩
        rcases Nat.lt_or_ge k n with h | h
        · exact h
        · obtain rfl : k = n := by omega
          rw [hn] at hfk
          cases hfk

/-- If only two of them have an opinion, one of which is the first, the other comes before it. -/
theorem findSome?_reverse_range_eq_or {α : Type} {n d : Nat} {f : Nat → Option α} (hd : d < n)
    (h : ∀ k, 0 < k → k < n → k ≠ d → f k = none) :
    (List.range n).reverse.findSome? f = (f d).or (f 0) := by
  ext a
  rw [findSome?_reverse_range_eq_some_iff, Option.or_eq_some_iff]
  constructor
  · rintro ⟨k, hk, hfk, hnearest⟩
    rcases eq_or_ne k d with rfl | hkd
    · exact .inl hfk
    rcases Nat.eq_zero_or_pos k with rfl | hpos
    · exact .inr ⟨hnearest d (Nat.pos_of_ne_zero hkd.symm) hd, hfk⟩
    · rw [h k hpos hk hkd] at hfk
      cases hfk
  · rintro (hfd | ⟨hfd, hf0⟩)
    · refine ⟨d, hd, hfd, fun l hl hlt => h l (by omega) hlt (by omega)⟩
    · refine ⟨0, by omega, hf0, ?_⟩
      intro l hl hlt
      rcases eq_or_ne l d with rfl | hld
      · exact hfd
      · exact h l hl hlt hld

/-- What the rules of the directory at depth `k` say about the path. -/
def Source.verdictAt (source : Source) (path : TreePath) (k : Nat) : Option Verdict :=
  ((source.rulesAt (path.ancestorAt k)).lastMatch? (path.viewFrom k)
    (source.countsAsDirectory path)).map Rule.verdict

/-! ## Decisions -/

section

variable {source : Source} {metadataName : Text} {path : TreePath}

theorem decisionAt_eq_none_iff {k : Nat} :
    source.decisionAt path k = none ↔
      ∀ rule ∈ source.rulesAt (path.ancestorAt k),
        rule.covers (path.viewFrom k) (source.countsAsDirectory path) = false := by
  unfold Source.decisionAt
  rw [Option.map_eq_none_iff, Rules.lastMatch?_eq_none_iff]

/-- The only rule of a directory decides if it covers the path. -/
theorem decisionAt_of_singleton {k : Nat} {rule : Rule}
    (hrules : source.rulesAt (path.ancestorAt k) = [rule])
    (hcovers : rule.covers (path.viewFrom k) (source.countsAsDirectory path) = true) :
    source.decisionAt path k = some (.byRule (path.ancestorAt k) rule) := by
  rw [Source.decisionAt, hrules, Rules.lastMatch?_singleton, if_pos hcovers, Option.map_some]

theorem judge_none_value (h : path.IsNormal) :
    (judge source metadataName path none).value =
      ((List.range ((path.directoryNames (source.countsAsDirectory path)).length + 1)).reverse
        |>.findSome? fun k => (path.ancestor metadataName k).decision? source
          (source.countsAsDirectory path)).getD .undecided := by
  unfold judge
  simp only [Outcome.before, climb_none_value]
  rw [← Source.countsAsDirectory, h.lineage_eq, List.findSome?_map]
  rfl

/-- A metadata directory decides, and the nearest directory is one if any is. -/
theorem judge_value_of_metadata (h : path.IsNormal)
    (hmetadata : metadataName ∈ path.directoryNames (source.countsAsDirectory path)) :
    (judge source metadataName path none).value =
      .byMetadata (.ofComponents (path.directoryNames (source.countsAsDirectory path))) := by
  rw [TreePath.directoryNames_eq_take] at hmetadata
  have hnearest : (path.ancestor metadataName
      (path.directoryNames (source.countsAsDirectory path)).length).decision? source
        (source.countsAsDirectory path) =
      some (.byMetadata (.ofComponents (path.directoryNames (source.countsAsDirectory path)))) := by
    simp only [Ancestor.decision?, TreePath.ancestor, List.contains_iff_mem.2 hmetadata, if_true]
    rw [TreePath.ancestorAt, ← TreePath.directoryNames_eq_take]
  rw [judge_none_value h, List.range_succ, List.reverse_concat, List.findSome?_cons, hnearest]
  rfl

/-- Below no metadata directory, only the rules of a directory give it an opinion. -/
theorem decision?_ancestor
    (hmetadata : metadataName ∉ path.directoryNames (source.countsAsDirectory path)) {k : Nat}
    (hk : k ≤ (path.directoryNames (source.countsAsDirectory path)).length) :
    (path.ancestor metadataName k).decision? source (source.countsAsDirectory path) =
      source.decisionAt path k := by
  have hcontains : (path.components.take k).contains metadataName = false := by
    rw [← Bool.not_eq_true, List.contains_iff_mem]
    intro hmem
    apply hmetadata
    rw [TreePath.directoryNames_eq_take]
    exact List.mem_of_mem_take (i := k) (by rwa [List.take_take, Nat.min_eq_left hk])
  unfold Ancestor.decision? TreePath.ancestor
  simp only [hcontains, Bool.false_eq_true, if_false]
  rfl

/-- The path itself has no opinion about itself. -/
theorem decisionAt_depth (h : path.IsNormal) : source.decisionAt path path.depth = none := by
  unfold Source.decisionAt
  rw [h.viewFrom_eq_nil_iff.2 (Nat.le_refl _), Rules.lastMatch?_empty_path]
  rfl

/-- If no metadata directory decides, the nearest directory with an opinion does. -/
theorem judge_value_of_not_metadata (h : path.IsNormal)
    (hmetadata : metadataName ∉ path.directoryNames (source.countsAsDirectory path)) :
    (judge source metadataName path none).value =
      ((List.range path.depth).reverse.findSome? (source.decisionAt path)).getD .undecided := by
  have hnearest : (List.range ((path.directoryNames (source.countsAsDirectory path)).length +
      1)).reverse.findSome? (fun k => (path.ancestor metadataName k).decision? source
        (source.countsAsDirectory path)) =
      (List.range ((path.directoryNames (source.countsAsDirectory path)).length +
        1)).reverse.findSome? (source.decisionAt path) := by
    rw [← List.head?_filterMap, ← List.head?_filterMap]
    apply congrArg List.head?
    apply List.filterMap_congr
    intro k hk
    rw [List.mem_reverse, List.mem_range] at hk
    exact decision?_ancestor hmetadata (Nat.le_of_lt_succ hk)
  rw [judge_none_value h, hnearest]
  have hle := path.length_directoryNames_le (source.countsAsDirectory path)
  have hge := path.depth_le_length_directoryNames (source.countsAsDirectory path)
  -- The nearest directory is the path itself, or the one that holds it.
  rcases Nat.lt_or_ge (path.directoryNames (source.countsAsDirectory path)).length path.depth with
    hlt | heq
  · rw [Nat.le_antisymm hge hlt]
  · rw [Nat.le_antisymm hle heq, List.range_succ, List.reverse_concat, List.findSome?_cons,
      decisionAt_depth h]

/-- A directory decides if it has an opinion and no nearer one has rules. -/
theorem judge_value_of_decisionAt (h : path.IsNormal)
    (hmetadata : metadataName ∉ path.directoryNames (source.countsAsDirectory path)) {k : Nat}
    (hk : k < path.depth) {decision : Decision}
    (hdecision : source.decisionAt path k = some decision)
    (hnearer : ∀ l < path.depth, k < l → source.rulesAt (path.ancestorAt l) = []) :
    (judge source metadataName path none).value = decision := by
  have hnone : ∀ l, k < l → l < path.depth → source.decisionAt path l = none := by
    intro l hl hlt
    rw [Source.decisionAt, hnearer l hlt hl, Rules.lastMatch?_nil, Option.map_none]
  rw [judge_value_of_not_metadata h hmetadata,
    findSome?_reverse_range_eq_some_iff.2 ⟨k, hk, hdecision, hnone⟩, Option.getD_some]

theorem judge_verdict_of_not_metadata (h : path.IsNormal)
    (hmetadata : metadataName ∉ path.directoryNames (source.countsAsDirectory path)) :
    (judge source metadataName path none).value.verdict =
      ((List.range path.depth).reverse.findSome? (source.verdictAt path)).getD .noOpinion := by
  have hverdict : source.verdictAt path = Option.map Decision.verdict ∘ source.decisionAt path := by
    funext k
    unfold Source.verdictAt
    rw [Function.comp_apply, Source.decisionAt, Option.map_map]
    rfl
  rw [judge_value_of_not_metadata h hmetadata, hverdict, ← List.map_findSome?]
  cases (List.range path.depth).reverse.findSome? (source.decisionAt path) <;> rfl

end

end PathIgnore
