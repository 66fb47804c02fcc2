import PathIgnore.Proofs.Rule.Grammar

/-!
# Lines that hold the same rule

Blanks around a line make no difference to the rule that it holds (`ofLine?_between_blanks`). Its
markers may be written in more than one way, but its parts have a normal line, from which they are
read back (`parse?_normalLine`). A rule shows this line with the escapes of the pattern resolved, so
the line that it shows is a normal form as long as no backslash is written (`ofLine?_display`). Of a
run of slashes at an end of the line only one is a marker, and the others stay in the text of the
rule (`text_ne_nil_and_slash_iff`).
-/

namespace PathIgnore

namespace RuleLine

/-! ## Cores -/

/-- Of a line, only what is left once the blanks around it are taken off counts. -/
theorem parse?_eq_of_isTrimmed {line other core : Text} (h : Text.IsTrimmed line core)
    (hother : Text.IsTrimmed other core) : parse? line = parse? other := by
  rw [parse?_eq, parse?_eq, ← Text.isTrimmed_iff.1 h, ← Text.isTrimmed_iff.1 hother]

theorem exists_isTrimmed_of_parse? {line : Text} {parts : RuleLine} (h : parse? line = some parts) :
    ∃ core, Text.IsTrimmed line core ∧ parts = ofTrimmed core ∧ parts.source ≠ [] :=
  ⟨_, Text.isTrimmed_trim line, eq_ofTrimmed_of_parse? h⟩

theorem mem_of_mem_source_ofTrimmed {core : Text} {c : Char} (h : c ∈ (ofTrimmed core).source) :
    c ∈ core := by
  have hbody : c ∈ (takeDirectoryMarker (takeNegation core).2).2 := by
    obtain hcut | ⟨hcut, -⟩ := dropLeadingSlash_cases (takeDirectoryMarker (takeNegation core).2).2
    · rw [hcut]
      exact List.mem_cons_of_mem _ h
    · rwa [hcut]
  have hrest : c ∈ (takeNegation core).2 := by
    rw [← append_directoryMarker (takeNegation core).2]
    exact List.mem_append_left _ hbody
  rw [← append_takeNegation core]
  exact List.mem_append_right _ hrest

/-- Without backslashes in the line, nothing in its pattern is taken literally. -/
theorem unescape_source {line : Text} {parts : RuleLine} (hline : '\\' ∉ line)
    (h : parse? line = some parts) : Text.unescape parts.source = parts.source := by
  obtain ⟨core, hcore, rfl, -⟩ := exists_isTrimmed_of_parse? h
  refine Text.unescape_of_not_mem fun hmem => hline ?_
  exact hcore.subset (mem_of_mem_source_ofTrimmed hmem)

/-! ## Normal lines -/

/-- The marker of a rule that is tied to the directory of the file. -/
def anchorMarker (anchored : Bool) : Text :=
  if anchored then ['/'] else []

/-- The line that is written for the parts of a rule, with the anchor always at the start. -/
def normalLine (parts : RuleLine) : Text :=
  negationMarker parts.negated ++
    (anchorMarker parts.anchored ++ (parts.source ++ directoryMarker parts.directoryOnly))

theorem dropLeadingSlash_of_not_anchored {body : Text} (hne : dropLeadingSlash body ≠ [])
    (hfree : isAnchored body = false) : dropLeadingSlash body = body := by
  obtain hcut | ⟨hcut, -⟩ := dropLeadingSlash_cases body
  · have hanchored := isAnchored_slash_cons hne
    rw [← hcut, hfree] at hanchored
    cases hanchored
  · exact hcut.symm

/-- A trimmed line whose rule is not anchored is normal already. -/
theorem normalLine_ofTrimmed {core : Text} (hne : (ofTrimmed core).source ≠ [])
    (hfree : (ofTrimmed core).anchored = false) : (ofTrimmed core).normalLine = core := by
  have hsource : (ofTrimmed core).source = (takeDirectoryMarker (takeNegation core).2).2 :=
    dropLeadingSlash_of_not_anchored hne hfree
  have hrest : (ofTrimmed core).source ++ directoryMarker (ofTrimmed core).directoryOnly =
      (takeNegation core).2 := by
    rw [hsource]
    exact append_directoryMarker (takeNegation core).2
  rw [normalLine, hfree, hrest]
  exact append_takeNegation core

/-- The parts of a line are read back from their normal line. -/
theorem parse?_normalLine {line : Text} {parts : RuleLine} (h : parse? line = some parts) :
    parse? parts.normalLine = some parts := by
  cases hanchored : parts.anchored with
  | true =>
    -- The anchor may stand inside the pattern; then one more slash is written before it.
    have hread := parse?_written (isWritten_of_parse? h) parts.negated
    rw [← hanchored] at hread
    rw [normalLine, hanchored]
    exact hread
  | false =>
    obtain ⟨core, hcore, rfl, hne⟩ := exists_isTrimmed_of_parse? h
    rw [normalLine_ofTrimmed hne hanchored, parse?_eq_of_isTrimmed hcore.self hcore, h]

/-! ## Slashes at the ends -/

theorem takeDirectoryMarker_slash {front : Text} (h : '\\' ∉ front) :
    takeDirectoryMarker (front ++ ['/']) = (true, front) := by
  have hlast : front.getLast? ≠ some '\\' := fun hlast => h (List.mem_of_getLast? hlast)
  rw [takeDirectoryMarker_concat, Text.endsInEscape_of_getLast?_ne hlast]
  rfl

/-- One slash is taken off the start, so a second one stays. -/
theorem head?_dropLeadingSlash_iff {body : Text} :
    (dropLeadingSlash body).head? = some '/' ↔ ['/', '/'] <+: body := by
  obtain hcut | ⟨hcut, hhead⟩ := dropLeadingSlash_cases body
  · conv_rhs => rw [hcut]
    rw [List.cons_prefix_cons, List.singleton_prefix_iff_head?_eq_some]
    simp
  · rw [← hcut]
    refine iff_of_false hhead ?_
    rintro ⟨more, rfl⟩
    exact hhead rfl

theorem getLast?_dropLeadingSlash {body : Text} (h : dropLeadingSlash body ≠ []) :
    (dropLeadingSlash body).getLast? = body.getLast? := by
  obtain hcut | ⟨hcut, -⟩ := dropLeadingSlash_cases body
  · conv_rhs => rw [hcut]
    exact (List.getLast?_cons_of_ne_nil h).symm
  · rw [← hcut]

/-- Without backslashes, one slash is taken off the end, so a second one stays. -/
theorem getLast?_takeDirectoryMarker_iff {rest : Text} (h : '\\' ∉ rest) :
    (takeDirectoryMarker rest).2.getLast? = some '/' ↔ ['/', '/'] <:+ rest := by
  cases rest using List.reverseRecOn with
  | nil => simp [takeDirectoryMarker]
  | append_singleton front c =>
    have hfront : '\\' ∉ front := fun hmem => h (List.mem_append_left _ hmem)
    rcases eq_or_ne c '/' with rfl | hc
    · have htwo : ['/', '/'] = ['/'] ++ ['/'] := rfl
      rw [takeDirectoryMarker_slash hfront, htwo, List.suffix_append_self_iff,
        List.singleton_suffix_iff_getLast?_eq_some]
    · have hkept : takeDirectoryMarker (front ++ [c]) = (false, front ++ [c]) := by
        simp [takeDirectoryMarker_concat, hc]
      rw [hkept]
      refine iff_of_false (by simpa using hc) ?_
      rintro ⟨before, heq⟩
      have hlast := congrArg List.getLast? heq
      exact hc (by simpa using hlast.symm)

/-- The marker at the end is no part of a run of slashes at the start, as something stands between
them. -/
theorem slashes_isPrefix_iff {rest : Text}
    (hne : dropLeadingSlash (takeDirectoryMarker rest).2 ≠ []) :
    ['/', '/'] <+: (takeDirectoryMarker rest).2 ↔ ['/', '/'] <+: rest := by
  have hcut := append_directoryMarker rest
  generalize (takeDirectoryMarker rest).2 = body at hne hcut ⊢
  have hbody : body <+: rest := ⟨_, hcut⟩
  refine ⟨fun h => h.trans hbody, fun h => ?_⟩
  -- The second slash is the marker only if the first one is all of the body.
  match body with
  | [] => exact absurd rfl hne
  | [c] =>
    have hshort := List.prefix_of_prefix_length_le hbody h (by simp)
    obtain ⟨rfl, -⟩ := List.cons_prefix_cons.1 hshort
    exact absurd rfl hne
  | c :: d :: body => exact List.prefix_of_prefix_length_le h hbody (by simp)

end RuleLine

namespace Rule

/-- Blanks around a line make no difference, unless the first one after it is taken literally. -/
theorem ofLine?_between_blanks {before after line : Text}
    (hbefore : ∀ c ∈ before, Text.isBlank c = true) (hafter : ∀ c ∈ after, Text.isBlank c = true)
    (hescape : after = [] ∨ ¬Text.EndsInOddRun line) :
    ofLine? (before ++ (line ++ after)) = ofLine? line := by
  have hcore := Text.isTrimmed_trim line
  have hblanks := hcore.between_blanks hbefore hafter hescape
  exact congrArg (Option.map ofRuleLine) (RuleLine.parse?_eq_of_isTrimmed hblanks hcore)

/-- A line that ends in an escaped backslash and an escaped blank, with blanks around it that are in
ASCII or not. -/
theorem ofLine?_between_blanks_escaped_blank :
    (∀ c ∈ "\u3000\t".toList, Text.isBlank c = true) ∧
      (∀ c ∈ " \u00a0\r".toList, Text.isBlank c = true) ∧
      ¬Text.EndsInOddRun " !a\\\\\\ ".toList ∧
      ofLine? ("\u3000\t".toList ++ (" !a\\\\\\ ".toList ++ " \u00a0\r".toList)) =
        ofLine? " !a\\\\\\ ".toList ∧
      (ofLine? " !a\\\\\\ ".toList).map text = some "a\\ ".toList := by
  have hbefore : ∀ c ∈ "\u3000\t".toList, Text.isBlank c = true :=
    List.all_eq_true.1 (by decide)
  have hafter : ∀ c ∈ " \u00a0\r".toList, Text.isBlank c = true :=
    List.all_eq_true.1 (by decide)
  have hescape : ¬Text.EndsInOddRun " !a\\\\\\ ".toList :=
    Text.endsInEscape_eq_false_iff.1 (by decide)
  have htext : (ofLine? " !a\\\\\\ ".toList).map text = some "a\\ ".toList := by decide
  exact ⟨hbefore, hafter, hescape, ofLine?_between_blanks hbefore hafter (.inr hescape), htext⟩

/-! ## The line that a rule shows -/

theorem display_ofRuleLine {parts : RuleLine} (h : Text.unescape parts.source = parts.source) :
    (ofRuleLine parts).display = parts.normalLine := by
  rw [RuleLine.normalLine, ← List.append_assoc, ← List.append_assoc]
  simp only [display, ofRuleLine, h]
  rfl

/-- The line that the rule of a line shows. -/
def shownLine? (line : Text) : Option Text :=
  (ofLine? line).map display

/-- The line that a rule shows holds the same rule, if the rule was read from a line without
backslashes. So a line and the line shown for it show the same. -/
theorem ofLine?_display {line : Text} (hline : '\\' ∉ line) :
    (∀ rule, ofLine? line = some rule → ofLine? rule.display = some rule) ∧
      (shownLine? line).bind shownLine? = shownLine? line := by
  have hread : ∀ rule, ofLine? line = some rule → ofLine? rule.display = some rule := by
    intro rule h
    obtain ⟨parts, hparse, rfl⟩ := Option.map_eq_some_iff.1 h
    have hsource := RuleLine.unescape_source hline hparse
    rw [display_ofRuleLine hsource, ofLine?, RuleLine.parse?_normalLine hparse]
    rfl
  refine ⟨hread, ?_⟩
  unfold shownLine?
  cases h : ofLine? line with
  | none => rfl
  | some rule => exact congrArg (Option.map display) (hread rule h)

/-- The anchor is written out, and neither the blank nor the `#` after it starts the line then. -/
theorem ofLine?_display_anchor :
    '\\' ∉ "  ! #a/*//  ".toList ∧
      ∃ rule, ofLine? "  ! #a/*//  ".toList = some rule ∧ rule.text = " #a/*/".toList ∧
        rule.display = "!/ #a/*//".toList ∧ ofLine? "!/ #a/*//".toList = some rule ∧
        (shownLine? "  ! #a/*//  ".toList).bind shownLine? = some "!/ #a/*//".toList := by
  have hline : '\\' ∉ "  ! #a/*//  ".toList := by decide
  obtain ⟨hread, hshown⟩ := ofLine?_display hline
  refine ⟨hline, _, rfl, by decide, by decide, hread _ rfl, ?_⟩
  rw [hshown]
  decide

/-! ## Slashes in the text of a rule -/

/-- The text of the rule of a line without backslashes is not empty, and it keeps a `/` at the start
or at the end just if what follows the marker of negation starts or ends with two of them. -/
theorem text_ne_nil_and_slash_iff {line : Text} (hline : '\\' ∉ line) {rule : Rule}
    (h : ofLine? line = some rule) :
    rule.text ≠ [] ∧ ∃ core, Text.IsTrimmed line core ∧
      (rule.text.head? = some '/' ↔ ['/', '/'] <+: (RuleLine.takeNegation core).2) ∧
      (rule.text.getLast? = some '/' ↔ ['/', '/'] <:+ (RuleLine.takeNegation core).2) := by
  obtain ⟨parts, hparse, rfl⟩ := Option.map_eq_some_iff.1 h
  have hsource := RuleLine.unescape_source hline hparse
  obtain ⟨core, hcore, rfl, hne⟩ := RuleLine.exists_isTrimmed_of_parse? hparse
  have htext : (ofRuleLine (.ofTrimmed core)).text = (RuleLine.ofTrimmed core).source := hsource
  have hrest : '\\' ∉ (RuleLine.takeNegation core).2 := by
    intro hmem
    rw [← RuleLine.append_takeNegation core] at hcore
    exact hline (hcore.subset (List.mem_append_right _ hmem))
  rw [htext]
  refine ⟨hne, core, hcore, ?_, ?_⟩
  · exact RuleLine.head?_dropLeadingSlash_iff.trans (RuleLine.slashes_isPrefix_iff hne)
  · rw [← RuleLine.getLast?_takeDirectoryMarker_iff hrest]
    exact Eq.congr_left (RuleLine.getLast?_dropLeadingSlash hne)

/-- Two slashes after the `!` and one at the end. -/
theorem text_ne_nil_and_slash_iff_start :
    '\\' ∉ " !//x/ ".toList ∧
      ∃ rule, ofLine? " !//x/ ".toList = some rule ∧ rule.text ≠ [] ∧
        rule.text.head? = some '/' ∧ rule.text.getLast? ≠ some '/' := by
  have hline : '\\' ∉ " !//x/ ".toList := by decide
  obtain ⟨hne, core, hcore, hstart, hend⟩ := text_ne_nil_and_slash_iff hline rfl
  obtain rfl : core = "!//x/".toList := (Text.isTrimmed_iff.1 hcore).trans (by decide)
  exact ⟨hline, _, rfl, hne, hstart.2 (by decide), fun hlast => absurd (hend.1 hlast) (by decide)⟩

/-- Not every text is free of slashes at both ends: that of `//a` is `/a`. -/
theorem not_forall_text_without_slashes :
    ¬∀ line rule, '\\' ∉ line → ofLine? line = some rule →
      rule.text ≠ [] ∧ rule.text.head? ≠ some '/' ∧ rule.text.getLast? ≠ some '/' := by
  intro h
  obtain ⟨-, hstart, -⟩ := h "//a".toList _ (by decide) rfl
  exact hstart (by decide)

end Rule

end PathIgnore
