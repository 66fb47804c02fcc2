import PathIgnore.Proofs.Pattern.Spelling
import PathIgnore.Proofs.Rule.Inheritance
import PathIgnore.Proofs.Rule.Line

/-!
# Rules that may start anywhere

A rule that is not anchored looks for its pattern after every `/` of a path; an anchored rule does
so if its pattern starts with `**/`. The `**/` takes no newline, so the two agree on paths of one
line only. Main statement: this, for patterns, for rules, and for the lines that hold them
(`covers_inAnyDirectory`).
-/

namespace PathIgnore

open Pattern (inAnyDirectory)

namespace RuleLine

/-- The `**/` holds a `/` that ties the pattern to the directory of the file. -/
theorem isAnchored_inAnyDirectory {source : Text} (h : source ≠ []) :
    isAnchored (inAnyDirectory source) = true := by
  unfold isAnchored inAnyDirectory
  rw [List.dropLast_cons_of_ne_nil (by simp), List.dropLast_cons_of_ne_nil (by simp),
    List.dropLast_cons_of_ne_nil h]
  simp

/-- For every line with a rule, there is a line with `**/` before the pattern of this rule. -/
theorem parse?_inAnyDirectory {line : Text} {parts : RuleLine} (h : parse? line = some parts) :
    parse? (negationMarker parts.negated ++
        (inAnyDirectory parts.source ++ directoryMarker parts.directoryOnly)) =
      some ⟨parts.negated, true, parts.directoryOnly, inAnyDirectory parts.source⟩ := by
  have hwritten := isWritten_of_parse? h
  have hbody : IsWritten (inAnyDirectory parts.source) parts.directoryOnly :=
    (isWritten_append_cons_iff ['*', '*'] (by decide) (by decide) hwritten.ne_nil).2 hwritten
  have hstart : parts.negated = false → ∀ c ∈ (inAnyDirectory parts.source).head?,
      Text.isBlank c = false ∧ c ≠ '#' ∧ c ≠ '!' := by
    rintro - c ⟨⟩
    decide
  have hkept : dropLeadingSlash (inAnyDirectory parts.source) = inAnyDirectory parts.source := rfl
  have hread := parse?_body hbody hstart (by rw [hkept]; exact hbody.ne_nil)
  rwa [isAnchored_inAnyDirectory hwritten.ne_nil, hkept] at hread

end RuleLine

namespace Pattern

theorem ofText_inAnyDirectory (source : Text) :
    ofText (inAnyDirectory source) = .directories :: ofText source :=
  tokens_inAnyDirectory source

theorem accepts_directories_iff {pattern : Pattern} {text : Text} (hline : '\n' ∉ text) :
    accepts (.directories :: pattern) text = true ↔
      pattern.accepts text = true ∨
        ∃ directory rest, text = directory ++ '/' :: rest ∧ pattern.accepts rest = true := by
  simpa only [accepts_iff] using denotes_directories_cons_iff_of_line hline

theorem matchesWhole_of_isSome {source : Text} (h : (Rule.patternOf source).isSome = true)
    (text : Text) : matchesWhole source text = (ofText source).accepts text := by
  rw [matchesWhole, Rule.patternOf_of_isSome h, Option.any_some]

end Pattern

namespace Rule

/-- A rule that is not anchored, and an anchored one with a `**/` before the pattern. -/
structure IsFreeForm (free bound : Rule) (pattern : Pattern) : Prop where
  free_anchored : free.anchored = false
  bound_anchored : bound.anchored = true
  directoryOnly_eq : free.directoryOnly = bound.directoryOnly
  free_pattern : free.pattern = some pattern
  bound_pattern : bound.pattern = some (.directories :: pattern)

variable {free bound : Rule} {pattern : Pattern} {path : Text}

theorem IsFreeForm.appliesTo_iff (h : IsFreeForm free bound pattern) (hline : '\n' ∉ path)
    (isDirectory : Bool) : free.AppliesTo path isDirectory ↔ bound.AppliesTo path isDirectory := by
  simp only [AppliesTo, h.directoryOnly_eq, h.free_pattern, h.bound_pattern, h.free_anchored,
    h.bound_anchored, Option.some.injEq, exists_eq_left', Pattern.accepts_directories_iff hline]
  simp

theorem IsFreeForm.covers_eq (h : IsFreeForm free bound pattern) (hline : '\n' ∉ path)
    (isDirectory : Bool) : free.covers path isDirectory = bound.covers path isDirectory := by
  have habove : ∀ directory below, path = directory ++ '/' :: below →
      (free.AppliesTo directory true ↔ bound.AppliesTo directory true) := by
    rintro directory below rfl
    exact h.appliesTo_iff (fun hmem => hline (List.mem_append_left _ hmem)) true
  rw [Bool.eq_iff_iff, covers_iff_appliesTo, covers_iff_appliesTo, h.appliesTo_iff hline]
  refine and_congr_right fun _ => or_congr_right ?_
  exact exists_congr fun directory => exists_congr fun below =>
    and_congr_right (habove directory below)

/-- On one line, a pattern is found as a text or after one of its slashes just if it is found as the
text with a `**/` before it. So a rule that is not anchored covers the same paths as the anchored
rule with a `**/` before its pattern, and for each line with the one there is a line with the
other. -/
theorem covers_inAnyDirectory {source : Text} (hfits : (patternOf source).isSome = true)
    (hfits' : (patternOf (inAnyDirectory source)).isSome = true) :
    (∀ text, '\n' ∉ text →
      ((Pattern.matchesWhole source text = true ∨ ∃ directory rest,
          text = directory ++ '/' :: rest ∧ Pattern.matchesWhole source rest = true) ↔
        Pattern.matchesWhole (inAnyDirectory source) text = true)) ∧
      ∀ negated directoryOnly,
        (∀ path isDirectory, '\n' ∉ path →
          (ofRuleLine ⟨negated, false, directoryOnly, source⟩).covers path isDirectory =
            (ofRuleLine ⟨negated, true, directoryOnly, inAnyDirectory source⟩).covers path
              isDirectory) ∧
          ∀ line, RuleLine.parse? line = some ⟨negated, false, directoryOnly, source⟩ →
            RuleLine.parse? (RuleLine.negationMarker negated ++
                (inAnyDirectory source ++ RuleLine.directoryMarker directoryOnly)) =
              some ⟨negated, true, directoryOnly, inAnyDirectory source⟩ := by
  refine ⟨fun text hline => ?_, fun negated directoryOnly => ⟨fun path isDirectory hline => ?_,
    fun line => RuleLine.parse?_inAnyDirectory⟩⟩
  · simp only [Pattern.matchesWhole_of_isSome hfits, Pattern.matchesWhole_of_isSome hfits',
      Pattern.ofText_inAnyDirectory]
    exact (Pattern.accepts_directories_iff hline).symm
  · have hbound := patternOf_of_isSome hfits'
    rw [Pattern.ofText_inAnyDirectory] at hbound
    have hform : IsFreeForm (ofRuleLine ⟨negated, false, directoryOnly, source⟩)
        (ofRuleLine ⟨negated, true, directoryOnly, inAnyDirectory source⟩)
        (Pattern.ofText source) := ⟨rfl, rfl, rfl, patternOf_of_isSome hfits, hbound⟩
    exact hform.covers_eq hline isDirectory

/-- The rule of `!*.d/` covers what lies in the directory `x.d` below `k`, and so does the rule of
`!**/*.d/`. -/
theorem covers_inAnyDirectory_extension :
    let free : RuleLine := ⟨true, false, true, "*.d".toList⟩
    let bound : RuleLine := ⟨true, true, true, "**/*.d".toList⟩
    RuleLine.parse? "!*.d/".toList = some free ∧ RuleLine.parse? "!**/*.d/".toList = some bound ∧
      (patternOf "*.d".toList).isSome = true ∧ (patternOf "**/*.d".toList).isSome = true ∧
      '\n' ∉ "k/x.d".toList ∧ Pattern.matchesWhole "**/*.d".toList "k/x.d".toList = true ∧
      '\n' ∉ "k/x.d/b".toList ∧
      (ofRuleLine free).covers "k/x.d/b".toList false = true ∧
      (ofRuleLine bound).covers "k/x.d/b".toList false = true := by
  intro free bound
  have hline : RuleLine.parse? "!*.d/".toList = some free := by decide
  have hfits : (patternOf "*.d".toList).isSome = true := by decide
  have hfits' : (patternOf "**/*.d".toList).isSome = true := by decide
  have hone : '\n' ∉ "k/x.d".toList := by decide
  have hone' : '\n' ∉ "k/x.d/b".toList := by decide
  have hfound : Pattern.matchesWhole "*.d".toList "x.d".toList = true := by
    rw [Pattern.matchesWhole_eq_any]
    decide
  have hcovers : (ofRuleLine free).covers "k/x.d/b".toList false = true := by
    have habove : (ofRuleLine free).AppliesTo "k/x.d".toList true := by
      refine ⟨.inr rfl, _, patternOf_of_isSome hfits, .inr ⟨rfl, ['k'], "x.d".toList, rfl, ?_⟩⟩
      rwa [Pattern.matchesWhole_of_isSome hfits] at hfound
    exact covers_iff_appliesTo.2 ⟨by decide, .inr ⟨"k/x.d".toList, ['b'], rfl, habove⟩⟩
  obtain ⟨hmatches, hrules⟩ := covers_inAnyDirectory hfits hfits'
  obtain ⟨hsame, hlines⟩ := hrules true true
  refine ⟨hline, hlines _ hline, hfits, hfits', hone, ?_, hone', hcovers, ?_⟩
  · exact (hmatches _ hone).1 (.inr ⟨['k'], "x.d".toList, rfl, hfound⟩)
  · exact (hsame _ false hone').symm.trans hcovers

end Rule

end PathIgnore
