import PathIgnore.Proofs.Pattern.Spelling
import PathIgnore.Proofs.Rule.Line
import PathIgnore.Proofs.Rule.Matching

/-!
# The text of a rule

A rule shows its pattern with the escapes resolved. The pattern is read from the same glyphs, and
every wildcard stands for its own stars, among others, so a pattern is found as its own text; if all
its stars are taken literally, it is found as nothing else. Main statement: this, with what it says
of the rule that a line holds (`matchesWhole_unescape_and_covers_text`).
-/

namespace PathIgnore

namespace Pattern

/-! ## Glyphs and what they stand for -/

theorem denotes_ofStars (stars : Nat) : (ofStars stars).Denotes (List.replicate stars '*') := by
  match stars with
  | 0 => exact .nil
  | 1 => exact denotes_component_cons_iff.2 ⟨['*'], [], rfl, by simp, .nil⟩
  | n + 2 =>
    refine denotes_anything_cons_iff.2 ⟨List.replicate (n + 2) '*', [], by simp, ?_, .nil⟩
    intro c hc
    rw [List.eq_of_mem_replicate hc]
    decide

/-- What is read after open stars denotes these stars and the characters that follow. -/
theorem denotes_ofGlyphs (fresh : Bool) (stars : Nat) (glyphs : List Text.Glyph) :
    (ofGlyphs fresh stars glyphs).Denotes
      (List.replicate stars '*' ++ glyphs.map Text.Glyph.char) := by
  induction glyphs generalizing fresh stars with
  | nil => simpa [ofGlyphs] using denotes_ofStars stars
  | cons glyph rest ih =>
    have hstars := denotes_ofStars stars
    have hrest : ∀ fresh, (ofGlyphs fresh 0 rest).Denotes (rest.map Text.Glyph.char) :=
      fun fresh => ih fresh 0
    cases glyph with
    | escaped c => exact denotes_append hstars (.cons (.literal c) (hrest false))
    | plain c =>
      rcases eq_or_ne c '*' with rfl | hstar
      · have hmore := ih fresh (stars + 1)
        rwa [List.replicate_succ', List.append_assoc] at hmore
      rcases eq_or_ne c '/' with rfl | hslash
      · rw [ofGlyphs_slash]
        split
        · -- The run that a `**/` takes may be that of its own stars.
          refine denotes_directories_cons_iff.2 (.inr ⟨List.replicate stars '*', _, rfl, ?_,
            hrest true⟩)
          intro c hc
          rw [List.eq_of_mem_replicate hc]
          decide
        · exact denotes_append hstars (.cons (.literal '/') (hrest true))
      · rw [ofGlyphs_plain _ _ hstar hslash]
        exact denotes_append hstars (.cons (.literal c) (hrest false))

theorem denotes_tokens_unescape (fresh : Bool) (source : Text) :
    (tokens fresh source).Denotes (Text.unescape source) :=
  denotes_ofGlyphs fresh 0 (Text.glyphs source)

/-- If all stars are taken literally, every glyph is read as its character. -/
theorem ofGlyphs_eq_map_literal (fresh : Bool) {glyphs : List Text.Glyph}
    (h : .plain '*' ∉ glyphs) :
    ofGlyphs fresh 0 glyphs = (glyphs.map Text.Glyph.char).map .literal := by
  induction glyphs generalizing fresh with
  | nil => rfl
  | cons glyph rest ih =>
    obtain ⟨hglyph, hrest⟩ := List.ne_and_not_mem_of_not_mem_cons h
    cases glyph with
    | escaped c =>
      rw [ofGlyphs_escaped, ih false hrest]
      rfl
    | plain c =>
      have hstar : c ≠ '*' := fun hc => hglyph (congrArg Text.Glyph.plain hc.symm)
      rcases eq_or_ne c '/' with rfl | hslash
      · rw [ofGlyphs_slash, decide_eq_false (by decide), Bool.and_false, ih true hrest]
        rfl
      · rw [ofGlyphs_plain _ _ hstar hslash, ih false hrest]
        rfl

theorem denotes_tokens_iff_of_no_star {fresh : Bool} {source text : Text}
    (h : .plain '*' ∉ Text.glyphs source) :
    (tokens fresh source).Denotes text ↔ text = Text.unescape source := by
  rw [tokens, ofGlyphs_eq_map_literal fresh h]
  exact denotes_map_literal_iff

end Pattern

namespace Rule

/-! ## Rules -/

theorem covers_of_denotes_text {rule : Rule} {pattern : Pattern} (h : rule.pattern = some pattern)
    (hne : rule.text ≠ []) (hdenotes : pattern.Denotes rule.text) :
    rule.covers rule.text true = true := by
  have hend : mayEnd rule.directoryOnly true [] = true := Bool.or_true _
  exact covers_iff.2 ⟨hne, pattern, h, [], rule.text, [], by simp, .inl rfl, hdenotes, hend⟩

/-- The rule that a line holds covers the directory that its text names, if it can be searched
for. -/
theorem covers_text_of_ofLine? {line : Text} {rule : Rule} (h : ofLine? line = some rule)
    (hsome : rule.pattern.isSome = true) : rule.covers rule.text true = true := by
  obtain ⟨parts, hparse, rfl⟩ := Option.map_eq_some_iff.1 h
  have hne : parts.source ≠ [] := (RuleLine.isWritten_of_parse? hparse).ne_nil
  apply covers_of_denotes_text (patternOf_of_isSome hsome)
  · exact fun hnil => hne (Text.unescape_eq_nil_iff.1 hnil)
  · exact Pattern.denotes_tokens_unescape true parts.source

/-- A pattern that can be searched for is found as its own text, and as nothing else if all its
stars are taken literally. So a rule covers its own text, as that of a directory. -/
theorem matchesWhole_unescape_and_covers_text :
    (∀ source, (patternOf source).isSome = true →
      Pattern.matchesWhole source (Text.unescape source) = true ∧
        (.plain '*' ∉ Text.glyphs source → ∀ text,
          Pattern.matchesWhole source text = true → text = Text.unescape source)) ∧
      ∀ line rule, ofLine? line = some rule → rule.pattern.isSome = true →
        rule.covers rule.text true = true := by
  refine ⟨fun source hfits => ⟨?_, ?_⟩, fun line rule => covers_text_of_ofLine?⟩
  · exact Pattern.matchesWhole_iff_denotes.2 ⟨hfits, Pattern.denotes_tokens_unescape true source⟩
  · intro hstar text h
    exact (Pattern.denotes_tokens_iff_of_no_star hstar).1 (Pattern.matchesWhole_iff_denotes.1 h).2

/-- An escaped star before a `**/`, and a backslash at the very end; and a line whose directory ends
in a blank. -/
theorem matchesWhole_unescape_and_covers_text_stars :
    (patternOf "a\\*/**/*\\".toList).isSome = true ∧
      Pattern.matchesWhole "a\\*/**/*\\".toList "a*/**/*\\".toList = true ∧
      (patternOf "\\*\\/b".toList).isSome = true ∧ .plain '*' ∉ Text.glyphs "\\*\\/b".toList ∧
      (∀ text, Pattern.matchesWhole "\\*\\/b".toList text = true → text = "*/b".toList) ∧
      ∃ rule, ofLine? " !**/a\\ / ".toList = some rule ∧ rule.pattern.isSome = true ∧
        rule.text = "**/a ".toList ∧ rule.covers "**/a ".toList true = true := by
  have hfits : (patternOf "a\\*/**/*\\".toList).isSome = true := by decide
  have hfits' : (patternOf "\\*\\/b".toList).isSome = true := by decide
  have hstar : .plain '*' ∉ Text.glyphs "\\*\\/b".toList := by decide
  obtain ⟨hfound, hrule⟩ := matchesWhole_unescape_and_covers_text
  refine ⟨hfits, (hfound _ hfits).1, hfits', hstar, (hfound _ hfits').2 hstar, ?_⟩
  have hline : ofLine? " !**/a\\ / ".toList =
      some ⟨"**/a ".toList, true, true, true, patternOf "**/a\\ ".toList⟩ := by decide
  have hsome : (patternOf "**/a\\ ".toList).isSome = true := by decide
  exact ⟨_, hline, hsome, rfl, hrule _ _ hline hsome⟩

end Rule

end PathIgnore
