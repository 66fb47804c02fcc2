import PathIgnore.Proofs.Rule.Line
import PathIgnore.Proofs.Rule.Matching
import PathIgnore.Proofs.TreePath.NormalForm

/-!
# Quoted paths

For every path in normal form there is a line whose rule covers that path and what lies below it,
and nothing else: the path with a backslash before every character but `/`. Main statement: the line
is read as meant, and its rule covers just that (`ofLine?_quotedLine`).
-/

namespace PathIgnore

namespace RuleLine

/-- The line that quotes a path. -/
def quotedLine (path : TreePath) (negated directoryOnly : Bool) : Text :=
  negationMarker negated ++ '/' ::
    (Text.escapeExcept (· == '/') path.text ++ directoryMarker directoryOnly)

/-- A quoted text is read back if it does not end in a `/`, which would be taken for a mark. -/
theorem isWritten_quoted {text : Text} (hne : text ≠ []) (hend : ∀ front, text ≠ front ++ ['/'])
    (directoryOnly : Bool) : IsWritten (Text.escapeExcept (· == '/') text) directoryOnly := by
  have hpaired : ∀ text, Text.endsInEscape (Text.escapeExcept (· == '/') text) = false :=
    Text.endsInEscape_escapeExcept rfl
  cases text using List.reverseRecOn with
  | nil => exact absurd rfl hne
  | append_singleton front c =>
    have hc : c ≠ '/' := by
      rintro rfl
      exact hend front rfl
    have hquoted : Text.escapeExcept (· == '/') (front ++ [c]) =
        Text.escapeExcept (· == '/') front ++ ['\\'] ++ [c] := by
      simp [Text.escapeExcept_append, Text.escapeExcept, hc]
    cases directoryOnly with
    | true =>
      refine ⟨by simp, ?_, ?_⟩
      · simp only [directoryMarker, if_true, Text.trimEnd_concat, Text.isBlank_slash,
          Bool.false_and, Bool.false_eq_true, if_false]
      · simp only [directoryMarker, if_true, takeDirectoryMarker_concat, hpaired, Bool.not_false,
          decide_true, Bool.and_self]
    | false =>
      -- The backslash before the last character takes it literally, be it a blank.
      refine ⟨by simp, ?_, ?_⟩
      · rw [hquoted, directoryMarker, if_neg Bool.false_ne_true, List.append_nil,
          Text.trimEnd_concat, Text.endsInEscape_concat_backslash, hpaired]
        simp
      · rw [hquoted, directoryMarker, if_neg Bool.false_ne_true, List.append_nil,
          takeDirectoryMarker_concat]
        simp [hc]

theorem parse?_quotedLine {path : TreePath} (h : path.IsNormal) (hroot : path ≠ .root)
    (negated directoryOnly : Bool) :
    parse? (quotedLine path negated directoryOnly) =
      some ⟨negated, true, directoryOnly, Text.escapeExcept (· == '/') path.text⟩ :=
  parse?_written (isWritten_quoted (h.text_ne_nil hroot) h.text_ne_append_slash directoryOnly)
    negated

end RuleLine

namespace Rule

/-- An anchored rule with the pattern of a text covers that text, and what lies below it. -/
theorem covers_iff_of_pattern_literal {rule : Rule} {text other : Text} {isDirectory : Bool}
    (hne : text ≠ []) (hanchored : rule.anchored = true)
    (hpattern : rule.pattern = some (text.map .literal)) :
    rule.covers other isDirectory = true ↔
      (∃ below, other = text ++ '/' :: below) ∨
        other = text ∧ (isDirectory = true ∨ rule.directoryOnly = false) := by
  simp only [covers_iff, hpattern, Option.some.injEq, exists_eq_left',
    Pattern.denotes_map_literal_iff]
  constructor
  · rintro ⟨-, before, _, rest, rfl, hstart, rfl, hrest⟩
    obtain rfl : before = [] := hstart.resolve_right fun hfree => by simp [hanchored] at hfree
    cases rest with
    | nil =>
      right
      simpa [mayEnd, or_comm] using hrest
    | cons c below =>
      obtain rfl : c = '/' := by simpa [mayEnd] using hrest
      exact .inl ⟨below, rfl⟩
  · rintro (⟨below, rfl⟩ | ⟨rfl, hend⟩)
    · exact ⟨by simp, [], text, '/' :: below, rfl, .inl rfl, rfl, rfl⟩
    · exact ⟨hne, [], other, [], by simp, .inl rfl, rfl, by simpa [mayEnd, or_comm] using hend⟩

/-- The line that quotes a path is read as a rule for just this path and what lies below it, with
the marks that it was given. -/
theorem ofLine?_quotedLine {path : TreePath} (h : path.IsNormal) (hroot : path ≠ .root)
    (negated directoryOnly : Bool) :
    ∃ rule, ofLine? (RuleLine.quotedLine path negated directoryOnly) = some rule ∧
      rule.negated = negated ∧ rule.anchored = true ∧ rule.directoryOnly = directoryOnly ∧
      rule.text = path.text ∧
      (rule.pattern.isSome = true → ∀ other isDirectory,
        rule.covers other isDirectory = true ↔
          (∃ below, other = path.text ++ '/' :: below) ∨
            other = path.text ∧ (isDirectory = true ∨ directoryOnly = false)) := by
  have hparse := RuleLine.parse?_quotedLine h hroot negated directoryOnly
  refine ⟨_, congrArg (Option.map ofRuleLine) hparse, rfl, rfl, rfl, ?_, ?_⟩
  · exact Text.unescape_escapeExcept rfl path.text
  · intro hsome other isDirectory
    apply covers_iff_of_pattern_literal (h.text_ne_nil hroot) rfl
    rw [ofRuleLine, patternOf_of_isSome hsome, Pattern.ofText_eq_tokens, Pattern.tokens_quoted]

/-- A path that starts and ends with a blank and holds a star and a backslash, quoted in a line
that keeps what lies below it. -/
theorem covers_quotedLine_blank_end :
    let path := TreePath.ofComponents [" !".toList, "*\\ ".toList]
    RuleLine.quotedLine path true false = "!/\\ \\!/\\*\\\\\\ ".toList ∧
      path.IsNormal ∧ path ≠ .root ∧
      ∃ rule, ofLine? "!/\\ \\!/\\*\\\\\\ ".toList = some rule ∧ rule.negated = true ∧
        rule.text = " !/*\\ ".toList ∧ rule.covers " !/*\\ /b".toList false = true ∧
        rule.covers " !/*\\ b".toList false = false := by
  intro path
  have hline : RuleLine.quotedLine path true false = "!/\\ \\!/\\*\\\\\\ ".toList := by decide
  have hnormal : path.IsNormal := by decide
  have hroot : path ≠ .root := by decide
  obtain ⟨rule, hrule, hnegated, -, -, htext, hcovers⟩ :=
    ofLine?_quotedLine hnormal hroot true false
  have hsome : ((ofLine? (RuleLine.quotedLine path true false)).bind pattern).isSome = true := by
    decide
  rw [hrule] at hsome
  rw [hline] at hrule
  refine ⟨hline, hnormal, hroot, rule, hrule, hnegated, htext, ?_, ?_⟩
  · exact (hcovers hsome _ _).2 (.inl ⟨['b'], rfl⟩)
  · rw [← Bool.not_eq_true, hcovers hsome]
    rintro (⟨below, h⟩ | ⟨h, -⟩)
    · have htext : path.text = " !/*\\ ".toList := by decide
      simp [htext] at h
    · revert h
      decide

end Rule

end PathIgnore
