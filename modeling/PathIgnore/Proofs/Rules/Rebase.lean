import Mathlib.Data.List.Basic
import PathIgnore.Proofs.Rule.Line
import PathIgnore.Proofs.Rule.Matching
import PathIgnore.Proofs.Rules.LastMatch
import PathIgnore.TreePath

/-!
# Rules moved to the root

What a rule says in the rule file of a directory, a line in the rule file of the root can say: the
directory is quoted before the pattern, with a `**/` in between if the rule was not tied to the
directory. The line is read back as meant (`parseAll_append_rebaseLines`), and its rule covers a
path if the rule covers what is seen of the path from the directory (`covers_rebase_iff`).
-/

namespace PathIgnore

namespace RuleLine

/-- The pattern as it is written in the rule file of the root. -/
def rebasedSource (directory : TreePath) (line : RuleLine) : Text :=
  Text.escapeExcept (· == '/') directory.text ++ '/' ::
    ((if line.anchored then [] else ['*', '*', '/']) ++ line.source)

/-- The parts of the line that stands in the rule file of the root for a rule of a directory. -/
def rebase (directory : TreePath) (line : RuleLine) : RuleLine where
  negated := line.negated
  anchored := true
  directoryOnly := line.directoryOnly
  source := rebasedSource directory line

/-- That line. -/
def rebasedLine (directory : TreePath) (line : RuleLine) : Text :=
  negationMarker line.negated ++ '/' ::
    (rebasedSource directory line ++ directoryMarker line.directoryOnly)

/-- One line for every rule of a directory's rule file. -/
def rebaseLines (directory : TreePath) (lines : List Text) : List Text :=
  (parseAll lines).map (rebasedLine directory)

variable {directory : TreePath} {line : RuleLine}

theorem isWritten_rebasedSource (directory : TreePath)
    (h : IsWritten line.source line.directoryOnly) :
    IsWritten (rebasedSource directory line) line.directoryOnly := by
  unfold rebasedSource
  cases line.anchored with
  | true => exact (isWritten_append_cons_iff _ (by decide) (by decide) h.ne_nil).2 h
  | false =>
    -- The `/` of the `**/` already separates the pattern from what stands before it.
    have hstars : IsWritten (['*', '*'] ++ '/' :: line.source) line.directoryOnly :=
      (isWritten_append_cons_iff _ (by decide) (by decide) h.ne_nil).2 h
    exact (isWritten_append_cons_iff _ (by decide) (by decide) hstars.ne_nil).2 hstars

theorem parse?_rebasedLine (directory : TreePath) (h : IsWritten line.source line.directoryOnly) :
    parse? (rebasedLine directory line) = some (line.rebase directory) :=
  parse?_written (isWritten_rebasedSource directory h) line.negated

theorem dropByteOrderMark_rebasedLine (directory : TreePath) (line : RuleLine) :
    Text.dropByteOrderMark (rebasedLine directory line) = rebasedLine directory line := by
  unfold rebasedLine
  cases line.negated <;> rfl

theorem parseAll_append_rebaseLines (directory : TreePath) (first lines : List Text) :
    parseAll (first ++ rebaseLines directory lines) =
      parseAll first ++ (parseAll lines).map (rebase directory) := by
  have hmark : ∀ line ∈ rebaseLines directory lines, Text.dropByteOrderMark line = line := by
    intro line hline
    obtain ⟨parts, -, rfl⟩ := List.mem_map.1 hline
    exact dropByteOrderMark_rebasedLine directory parts
  have hparse : ∀ parts ∈ parseAll lines,
      parse? (rebasedLine directory parts) = some (parts.rebase directory) := by
    intro parts hparts
    obtain ⟨raw, hraw⟩ := exists_of_mem_parseAll hparts
    exact parse?_rebasedLine directory (isWritten_of_parse? hraw)
  rw [parseAll_append first fun line hline => hmark line (List.mem_of_mem_head? hline),
    parseAll_eq_filterMap fun line hline => hmark line (List.mem_of_mem_head? hline),
    rebaseLines, List.filterMap_map]
  exact congrArg _ (List.filterMap_eq_map_iff_forall_eq_some.2 hparse)

end RuleLine

/-! ## Coverage -/

theorem ofText_rebasedSource (directory : TreePath) (line : RuleLine) :
    Pattern.ofText (line.rebasedSource directory) =
      directory.text.map .literal ++ .literal '/' ::
        ((if line.anchored then [] else [.directories]) ++ Pattern.ofText line.source) := by
  unfold RuleLine.rebasedSource
  rw [Pattern.ofText_eq_tokens, Pattern.tokens_quoted_slash]
  cases line.anchored with
  | true => rfl
  | false =>
    rw [if_neg Bool.false_ne_true, if_neg Bool.false_ne_true]
    exact congrArg _ (congrArg _ (Pattern.tokens_inAnyDirectory line.source))

/-- On one line, the moved rule covers what lies below the directory as the rule covers what is seen
from there. -/
theorem covers_rebase_iff {directory : TreePath} {line : RuleLine} {path : Text}
    {isDirectory : Bool} (hrule : (Rule.ofRuleLine line).pattern.isSome)
    (hrebased : (Rule.ofRuleLine (line.rebase directory)).pattern.isSome)
    (hline : '\n' ∉ path) (hend : path ≠ directory.text ++ ['/']) :
    (Rule.ofRuleLine (line.rebase directory)).covers path isDirectory = true ↔
      ∃ view, path = directory.text ++ '/' :: view ∧
        (Rule.ofRuleLine line).covers view isDirectory = true := by
  have hpattern : (Rule.ofRuleLine line).pattern = some (.ofText line.source) :=
    Rule.patternOf_of_isSome hrule
  have hpattern' : (Rule.ofRuleLine (line.rebase directory)).pattern =
      some (.ofText (line.rebasedSource directory)) := Rule.patternOf_of_isSome hrebased
  simp only [Rule.covers_iff, hpattern, hpattern', Option.some.injEq, exists_eq_left',
    ofText_rebasedSource, Pattern.denotes_map_literal_append_iff, Pattern.denotes_literal_cons_iff]
  constructor
  · rintro ⟨-, start, _, rest, rfl, hstart, ⟨_, rfl, text, rfl, htext⟩, hrest⟩
    -- The moved rule is anchored, so the match starts at the very start.
    obtain rfl : start = [] := hstart.resolve_right fun h => Bool.noConfusion h.1
    have hone : '\n' ∉ text := fun h => hline (by simp [h])
    obtain ⟨before, part, rfl, hbefore, hpart⟩ := (Rule.denotes_directories_append_iff hone).1 htext
    refine ⟨before ++ part ++ rest, by simp, ?_, before, part, rest, rfl, hbefore, hpart, hrest⟩
    intro hview
    exact hend (by simp [hview])
  · rintro ⟨view, rfl, -, before, part, rest, rfl, hbefore, hpart, hrest⟩
    have hone : '\n' ∉ before ++ part := fun h => hline (by simp_all)
    have htext := (Rule.denotes_directories_append_iff hone).2 ⟨before, part, rfl, hbefore, hpart⟩
    exact ⟨by simp, [], directory.text ++ '/' :: (before ++ part), rest, by simp, .inl rfl,
      ⟨_, rfl, before ++ part, rfl, htext⟩, hrest⟩

/-! ## Files -/

variable {directory : TreePath} {lines : List Text}

theorem ofLines_rebaseLines (directory : TreePath) (lines : List Text) :
    Rules.ofLines (RuleLine.rebaseLines directory lines) =
      (RuleLine.parseAll lines).map fun line => .ofRuleLine (line.rebase directory) := by
  have hparse := RuleLine.parseAll_append_rebaseLines directory [] lines
  rw [List.nil_append, RuleLine.parseAll_nil, List.nil_append] at hparse
  rw [Rules.ofLines, hparse, List.map_map]
  rfl

theorem ofLines_append_rebaseLines (directory : TreePath) (first lines : List Text) :
    Rules.ofLines (first ++ RuleLine.rebaseLines directory lines) =
      Rules.ofLines first ++ Rules.ofLines (RuleLine.rebaseLines directory lines) := by
  rw [ofLines_rebaseLines, Rules.ofLines, RuleLine.parseAll_append_rebaseLines, List.map_append,
    List.map_map]
  rfl

/-- The patterns of the rules of a directory, and of the moved rules, are not too large to search
for. -/
def AreSearchable (directory : TreePath) (lines : List Text) : Prop :=
  ∀ rule ∈ Rules.ofLines lines ++ Rules.ofLines (RuleLine.rebaseLines directory lines),
    rule.pattern.isSome

theorem AreSearchable.of_mem (h : AreSearchable directory lines) {line : RuleLine}
    (hmem : line ∈ RuleLine.parseAll lines) :
    (Rule.ofRuleLine line).pattern.isSome ∧
      (Rule.ofRuleLine (line.rebase directory)).pattern.isSome := by
  constructor
  · exact h _ (List.mem_append_left _ (List.mem_map_of_mem hmem))
  · apply h _ (List.mem_append_right _ _)
    rw [ofLines_rebaseLines]
    exact List.mem_map_of_mem hmem

/-- Below the directory, the moved rules say what the rules say from there. -/
theorem lastMatch?_rebaseLines_below (h : AreSearchable directory lines) {view : Text}
    (hline : '\n' ∉ directory.text ++ '/' :: view) (hview : view ≠ []) (isDirectory : Bool) :
    ((Rules.ofLines (RuleLine.rebaseLines directory lines)).lastMatch?
        (directory.text ++ '/' :: view) isDirectory).map Rule.verdict =
      ((Rules.ofLines lines).lastMatch? view isDirectory).map Rule.verdict := by
  rw [ofLines_rebaseLines, Rules.ofLines]
  apply Rules.lastMatch?_map_verdict
  · intro line hmem
    obtain ⟨hrule, hrebased⟩ := h.of_mem hmem
    rw [Bool.eq_iff_iff, covers_rebase_iff hrule hrebased hline (by simpa using hview)]
    constructor
    · rintro ⟨other, hother, hcovers⟩
      rwa [(List.cons.inj (List.append_cancel_left hother)).2]
    · intro hcovers
      exact ⟨view, rfl, hcovers⟩
  · intro line _
    rfl

/-- The moved rules say nothing about what does not lie below the directory. -/
theorem lastMatch?_rebaseLines_of_not_below (h : AreSearchable directory lines) {path : Text}
    (hline : '\n' ∉ path) (hpath : ∀ view, path ≠ directory.text ++ '/' :: view)
    (isDirectory : Bool) :
    (Rules.ofLines (RuleLine.rebaseLines directory lines)).lastMatch? path isDirectory = none := by
  rw [Rules.lastMatch?_eq_none_iff, ofLines_rebaseLines]
  intro rule hrule
  obtain ⟨line, hmem, rfl⟩ := List.mem_map.1 hrule
  obtain ⟨hrule, hrebased⟩ := h.of_mem hmem
  rw [← Bool.not_eq_true, covers_rebase_iff hrule hrebased hline (hpath [])]
  rintro ⟨view, hview, -⟩
  exact hpath view hview

end PathIgnore
