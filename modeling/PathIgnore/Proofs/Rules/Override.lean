import PathIgnore.Proofs.Rule.Line
import PathIgnore.Proofs.Rule.Matching
import PathIgnore.Proofs.Rules.LastMatch

/-!
# One file after another

A file whose lines are those of two files, one after the other, holds the rules of the first file
and then those of the second. As the last rule that covers a path decides, the second file overrides
the first wherever it says anything, and only there. Main statement: `ofLines_append_overrides`.
-/

namespace PathIgnore.Rules

/-! ## Rules after rules -/

/-- The rules of the second file stand after those of the first, and count on from there. -/
theorem lastMatchIndex?_append (first second : Rules) (path : Text) (isDirectory : Bool) :
    lastMatchIndex? (first ++ second) path isDirectory =
      ((lastMatchIndex? second path isDirectory).map (first.length + ·)).or
        (lastMatchIndex? first path isDirectory) := by
  simp only [lastMatchIndex?, List.reverse_append, List.findIdx?_append, Option.map_or,
    Option.map_map, List.length_append, List.length_reverse]
  congr 1
  -- Positions are found from the end, and counted from the start of the two files together.
  · refine Option.map_congr fun i hi => ?_
    have hlt := (List.findIdx?_eq_some_iff_getElem.1 hi).1
    rw [List.length_reverse] at hlt
    simp only [Function.comp_apply]
    omega
  · refine Option.map_congr fun i _ => ?_
    simp only [Function.comp_apply]
    omega

/-- What the second file says overrides what the first one says. -/
theorem verdict_append (first second : Rules) (path : Text) (isDirectory : Bool) :
    verdict (first ++ second) path isDirectory =
      if (verdict second path isDirectory).isDecisive then verdict second path isDirectory
      else verdict first path isDirectory := by
  unfold verdict
  rw [lastMatch?_append]
  cases lastMatch? second path isDirectory with
  | none => rfl
  -- A rule never leaves a path open.
  | some rule => simp

/-! ## Lines after lines -/

theorem ofLines_append (lines : List Text) {more : List Text}
    (h : ∀ line ∈ more.head?, line.head? ≠ some '\uFEFF') :
    ofLines (lines ++ more) = ofLines lines ++ ofLines more := by
  have hmark : ∀ line ∈ more.head?, Text.dropByteOrderMark line = line :=
    fun line hline => Text.dropByteOrderMark_of_head?_ne (h line hline)
  rw [ofLines, RuleLine.parseAll_append lines hmark, List.map_append]
  rfl

/-- If no byte order mark starts the second part of a file, the file holds the rules of the first
part and then those of the second. Its verdict is that of the second part where this is decisive,
and that of the first part elsewhere; so is the rule that decides, and its position. -/
theorem ofLines_append_overrides {lines more : List Text}
    (h : ∀ line ∈ more.head?, line.head? ≠ some '\uFEFF') :
    ofLines (lines ++ more) = ofLines lines ++ ofLines more ∧
      ∀ path isDirectory,
        (ofLines (lines ++ more)).verdict path isDirectory =
            (if ((ofLines more).verdict path isDirectory).isDecisive then
              (ofLines more).verdict path isDirectory
            else (ofLines lines).verdict path isDirectory) ∧
          (ofLines (lines ++ more)).lastMatch? path isDirectory =
            ((ofLines more).lastMatch? path isDirectory).or
              ((ofLines lines).lastMatch? path isDirectory) ∧
          (ofLines (lines ++ more)).lastMatchIndex? path isDirectory =
            (((ofLines more).lastMatchIndex? path isDirectory).map
              ((ofLines lines).length + ·)).or
              ((ofLines lines).lastMatchIndex? path isDirectory) := by
  have hrules := ofLines_append lines h
  refine ⟨hrules, fun path isDirectory => ?_⟩
  rw [hrules]
  exact ⟨verdict_append _ _ path isDirectory, lastMatch?_append _ _ path isDirectory,
    lastMatchIndex?_append _ _ path isDirectory⟩

/-- A mark is dropped at the start of the first part only. The second part says something about `k`,
and nothing about `a`. -/
theorem ofLines_append_overrides_keep :
    let lines := ["\uFEFF*".toList, "#".toList]
    let more := ["!/k".toList]
    (∀ line ∈ more.head?, line.head? ≠ some '\uFEFF') ∧
      (ofLines (lines ++ more)).map Rule.display = ["*".toList, "!/k".toList] ∧
      (ofLines (lines ++ more)).verdict ['k'] false = .notIgnored ∧
      (ofLines (lines ++ more)).lastMatch? ['k'] false = (ofLines more).head? ∧
      (ofLines (lines ++ more)).verdict ['a'] false = .ignored ∧
      (ofLines (lines ++ more)).lastMatch? ['a'] false = (ofLines lines).head? := by
  intro lines more
  have h : ∀ line ∈ more.head?, line.head? ≠ some '\uFEFF' := by decide
  have hkeep : (ofLines more).lastMatch? ['k'] false = (ofLines more).head? := by
    change lastMatch? [_] _ _ = _
    rw [lastMatch?_singleton, Rule.covers_eq_any rfl]
    decide
  have hopen : (ofLines more).lastMatch? ['a'] false = none := by
    change lastMatch? [_] _ _ = _
    rw [lastMatch?_singleton, Rule.covers_eq_any rfl]
    decide
  have hall : (ofLines lines).lastMatch? ['a'] false = (ofLines lines).head? := by
    change lastMatch? [_] _ _ = _
    rw [lastMatch?_singleton, Rule.covers_eq_any rfl]
    decide
  obtain ⟨hrules, hanswers⟩ := @ofLines_append_overrides lines more h
  obtain ⟨hverdict, hmatch, -⟩ := hanswers ['k'] false
  obtain ⟨hverdict', hmatch', -⟩ := hanswers ['a'] false
  refine ⟨h, hrules ▸ by decide, ?_, ?_, ?_, ?_⟩
  · rw [hverdict, verdict, hkeep]
    rfl
  · rw [hmatch, hkeep]
    rfl
  · rw [hverdict', verdict, verdict, hopen, hall]
    rfl
  · rw [hmatch', hopen, hall]
    rfl

end PathIgnore.Rules
