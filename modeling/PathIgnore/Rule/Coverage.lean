import PathIgnore.Pattern.Language
import PathIgnore.Rule

/-!
# Coverage

What it means that a rule covers a path, said without a search: some part of the path, from the
start of a component to the end of one, is denoted by the rule's pattern. Main statement: `covers`
decides this (`covers_iff`).
-/

namespace PathIgnore.Rule

/-- Whether a part of a path that follows `before` may be matched: an anchored rule starts at the
very start, any other also just after a `/`. -/
def MayStart (anchored : Bool) (before : Text) : Prop :=
  before = [] ∨ anchored = false ∧ ∃ directory, before = directory ++ ['/']

theorem endPlaces_of (directoryOnly isDirectory : Bool) (path : Text) :
    endPlaces directoryOnly isDirectory (.of path) =
      marks (mayEnd directoryOnly isDirectory) path := by
  have h : (!directoryOnly || isDirectory).toNat =
      marks (fun rest => rest.isEmpty && (!directoryOnly || isDirectory)) path := by
    induction path with
    | nil => rfl
    | cons c rest ih => simpa [marks] using ih
  rw [endPlaces, Index.before_of, h, marks_or]
  congr
  funext rest
  cases rest <;> simp [startsWith, mayEnd]

theorem meetsAfterSlash_marks {accept : Text → Bool} {path : Text} :
    meetsAfterSlash (.of path) (marks accept path) = true ↔
      ∃ directory rest, path = directory ++ '/' :: rest ∧ accept rest := by
  rw [meetsAfterSlash, Index.before_of, bne_iff_ne]
  constructor
  · intro h
    obtain ⟨r, hr⟩ := Nat.exists_testBit_of_ne_zero h
    rw [Nat.testBit_and, Nat.testBit_shiftRight, Nat.add_comm 1 r, Bool.and_eq_true] at hr
    obtain ⟨haccept, hslash⟩ := hr
    by_cases hlt : r < path.length
    · obtain ⟨c, hc⟩ := exists_drop_eq_cons hlt
      refine ⟨path.take (path.length - (r + 1)), path.drop (path.length - r), ?_, ?_⟩
      · have hslash : c = '/' := by
          have hle : r + 1 ≤ path.length := hlt
          simpa [testBit_marks, hc, startsWith, hle] using hslash
        rw [← hslash, ← hc, List.take_append_drop]
      · simpa [testBit_marks, Nat.le_of_lt hlt] using haccept
    · rw [testBit_marks_of_lt _ (by omega)] at hslash
      exact absurd hslash Bool.false_ne_true
  · rintro ⟨directory, rest, rfl, h⟩ hzero
    have hbit : (marks accept (directory ++ '/' :: rest) &&&
        marks (startsWith (· == '/')) (directory ++ '/' :: rest) >>> 1).testBit rest.length =
          true := by
      have h₁ : (directory ++ '/' :: rest).length - rest.length = directory.length + 1 := by
        simp; omega
      have h₂ : (directory ++ '/' :: rest).length - (rest.length + 1) = directory.length := by
        simp
      rw [Nat.testBit_and, Nat.testBit_shiftRight, Nat.add_comm 1, testBit_marks, testBit_marks,
        h₁, h₂]
      simp [h, startsWith]
      omega
    rw [hzero] at hbit
    simp at hbit

/-- A rule covers a path if its pattern denotes a part of the path that starts and ends where the
rule allows it. -/
theorem covers_iff {rule : Rule} {path : Text} {isDirectory : Bool} :
    rule.covers path isDirectory = true ↔
      path ≠ [] ∧ ∃ pattern, rule.pattern = some pattern ∧
        ∃ before part rest, path = before ++ part ++ rest ∧ MayStart rule.anchored before ∧
          pattern.Denotes part ∧ mayEnd rule.directoryOnly isDirectory rest = true := by
  unfold covers coversIndexed
  split
  · rename_i hnone
    simp [hnone]
  · rename_i pattern hsome
    have hsize : (Index.of path).size = path.length := rfl
    simp only [endPlaces_of, Pattern.pull_marks, hsize, testBit_marks_length, bne_iff_ne, ne_eq,
      List.length_eq_zero_iff, Bool.and_eq_true, Bool.not_eq_true', Bool.or_eq_true,
      meetsAfterSlash_marks, Pattern.leadsTo_eq_true_iff, hsome, Option.some.injEq,
      exists_eq_left']
    refine and_congr_right fun _ => ?_
    constructor
    · rintro (⟨part, rest, rfl, hpart, hend⟩ |
        ⟨hanchored, directory, _, rfl, part, rest, rfl, hpart, hend⟩)
      · exact ⟨[], part, rest, rfl, .inl rfl, hpart, hend⟩
      · exact ⟨directory ++ ['/'], part, rest, by simp, .inr ⟨hanchored, directory, rfl⟩, hpart,
          hend⟩
    · rintro ⟨before, part, rest, rfl, rfl | ⟨hanchored, directory, rfl⟩, hpart, hend⟩
      · exact .inl ⟨part, rest, rfl, hpart, hend⟩
      · exact .inr ⟨hanchored, directory, part ++ rest, by simp, part, rest, rfl, hpart, hend⟩

/-- What lies below a path that is covered is covered, too, as a match may end at any `/`. -/
theorem covers_append_slash {rule : Rule} {path : Text} {isDirectory : Bool}
    (h : rule.covers path isDirectory = true) (below : Text) (belowIsDirectory : Bool) :
    rule.covers (path ++ '/' :: below) belowIsDirectory = true := by
  rw [covers_iff] at h ⊢
  obtain ⟨-, pattern, hpattern, before, part, rest, rfl, hstart, hpart, hend⟩ := h
  refine ⟨by simp, pattern, hpattern, before, part, rest ++ '/' :: below, by simp, hstart, hpart, ?_⟩
  cases rest with
  | nil => rfl
  | cons c rest => exact hend

end PathIgnore.Rule
