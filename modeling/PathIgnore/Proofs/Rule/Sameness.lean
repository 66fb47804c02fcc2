import PathIgnore.Proofs.Pattern.Decoding
import PathIgnore.Proofs.Pattern.Spelling
import PathIgnore.Rules

/-!
# Rules that are the same

Two rules are compared by what they show and by the expressions of their patterns, and two files
rule by rule; a search uses the tokens of a pattern instead. As an expression can be read back in
one way only, nothing that is told apart by a search is the same to this comparison. Main statement:
rules, files and written patterns that compare as the same answer alike (`answers_alike_of_isSame`).
-/

namespace PathIgnore

namespace Pattern

variable {first second : Text}

theorem patternOf_eq_of_expression_eq
    (h : (ofText first).expression = (ofText second).expression) :
    Rule.patternOf first = Rule.patternOf second := by
  unfold Rule.patternOf
  rw [expression_injective h]

theorem spells_iff_of_expression_eq
    (h : (ofText first).expression = (ofText second).expression) (text : Text) :
    Spells true first text ↔ Spells true second text := by
  rw [← accepts_ofText_iff_spells, ← accepts_ofText_iff_spells, expression_injective h]

end Pattern

namespace Rule

/-- Rules that compare as the same are the same, also if neither of them can be searched for. -/
theorem isSame_iff_eq {a b : Rule} : a.isSame b = true ↔ a = b := by
  constructor
  · intro h
    obtain ⟨htext, hnegated, hanchored, hdirectoryOnly, hexpression⟩ := isSame_iff.1 h
    have hpattern := Option.map_injective Pattern.expression_injective hexpression
    cases a
    cases b
    rw [mk.injEq]
    exact ⟨htext, hnegated, hanchored, hdirectoryOnly, hpattern⟩
  · rintro rfl
    exact isSame_self a

end Rule

namespace Rules

theorem isSame_iff_eq {first second : Rules} : first.isSame second = true ↔ first = second := by
  induction first generalizing second with
  | nil => cases second <;> simp [isSame]
  | cons a first ih =>
    cases second with
    | nil => simp [isSame]
    | cons b second => rw [isSame, Bool.and_eq_true, Rule.isSame_iff_eq, ih, List.cons.injEq]

/-- Rules that compare as the same cover the same paths, say the same about them and show the same
line. So files that compare as the same give the same verdicts, by rules at the same positions, and
written patterns with the same expression stand for the same texts. -/
theorem answers_alike_of_isSame :
    (∀ a b : Rule, a.isSame b = true →
      (∀ path isDirectory, a.covers path isDirectory = b.covers path isDirectory) ∧
        a.verdict = b.verdict ∧ a.display = b.display) ∧
      (∀ first second : Rules, first.isSame second = true → ∀ path isDirectory,
        first.verdict path isDirectory = second.verdict path isDirectory ∧
          first.lastMatchIndex? path isDirectory = second.lastMatchIndex? path isDirectory) ∧
      ∀ first second, (Pattern.ofText first).expression = (Pattern.ofText second).expression →
        ∀ text, (Pattern.Spells true first text ↔ Pattern.Spells true second text) ∧
          Pattern.matchesWhole first text = Pattern.matchesWhole second text := by
  refine ⟨?_, ?_, ?_⟩
  · intro a b h
    obtain rfl := Rule.isSame_iff_eq.1 h
    exact ⟨fun _ _ => rfl, rfl, rfl⟩
  · intro first second h path isDirectory
    obtain rfl := isSame_iff_eq.1 h
    exact ⟨rfl, rfl⟩
  · intro first second h text
    refine ⟨Pattern.spells_iff_of_expression_eq h text, ?_⟩
    unfold Pattern.matchesWhole
    rw [Pattern.patternOf_eq_of_expression_eq h]

/-- An escape that is not needed, and three stars for two, are lost in the expression; blanks and
comments are lost before. -/
theorem answers_alike_of_isSame_escape :
    let first := ofLines ["  !*.\\c/".toList, "#".toList, "/k".toList]
    let second := ofLines ["!*\\.c/ ".toList, "/\\k".toList]
    first.isSame second = true ∧
      (∀ path isDirectory, first.verdict path isDirectory = second.verdict path isDirectory) ∧
      (∃ a b, Rule.ofLine? "  !*.\\c/".toList = some a ∧ Rule.ofLine? "!*\\.c/ ".toList = some b ∧
        a.isSame b = true ∧
        ∀ path isDirectory, a.covers path isDirectory = b.covers path isDirectory) ∧
      (Pattern.ofText "***/b".toList).expression = (Pattern.ofText "**/\\b".toList).expression ∧
      Pattern.matchesWhole "***/b".toList "x/b".toList = true ∧
      Pattern.matchesWhole "**/\\b".toList "x/b".toList = true := by
  intro first second
  obtain ⟨hrules, hfiles, hpatterns⟩ := answers_alike_of_isSame
  have hsame : first.isSame second = true := by decide
  have hexpression : (Pattern.ofText "***/b".toList).expression =
      (Pattern.ofText "**/\\b".toList).expression := by decide
  have hfound : Pattern.matchesWhole "***/b".toList "x/b".toList = true := by
    rw [Pattern.matchesWhole_eq_any]
    decide
  refine ⟨hsame, fun path isDirectory => (hfiles _ _ hsame path isDirectory).1,
    ⟨_, _, rfl, rfl, by decide, ?_⟩, hexpression, hfound, ?_⟩
  · exact (hrules _ _ (by decide)).1
  · exact (hpatterns _ _ hexpression _).2.symm.trans hfound

end Rules

end PathIgnore
