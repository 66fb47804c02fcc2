import PathIgnore.Proofs.Rule.Line
import PathIgnore.Proofs.Text.Trim
import PathIgnore.Rule

/-!
# The grammar of rule lines

`HoldsNoRule` says which trimmed lines hold no rule, and `IsReadFrom`, cut by cut, which rule any
other one holds. Main statement: every line is read by this grammar (`ofLine?_isReadFrom`).
-/

namespace PathIgnore

namespace RuleLine

/-! ## Cuts -/

theorem takeNegation_fst_iff {line : Text} :
    (takeNegation line).1 = true ↔ line.head? = some '!' := by
  unfold takeNegation
  split
  · simp
  · rename_i hmarker
    cases line with
    | nil => simp
    | cons c rest =>
      have hc : c ≠ '!' := by
        rintro rfl
        exact hmarker rest rfl
      simpa using hc

theorem append_takeNegation (line : Text) :
    negationMarker (takeNegation line).1 ++ (takeNegation line).2 = line := by
  unfold takeNegation
  split <;> rfl

theorem takeDirectoryMarker_fst_iff {line : Text} :
    (takeDirectoryMarker line).1 = true ↔
      ∃ front, line = front ++ ['/'] ∧ ¬Text.EndsInOddRun front := by
  cases line using List.reverseRecOn with
  | nil => simp [takeDirectoryMarker]
  | append_singleton front c =>
    rw [takeDirectoryMarker_concat]
    constructor
    · intro h
      split at h
      · rename_i hmarker
        simp only [Bool.and_eq_true, decide_eq_true_eq, Bool.not_eq_true'] at hmarker
        exact ⟨front, by rw [hmarker.1], Text.endsInEscape_eq_false_iff.1 hmarker.2⟩
      · cases h
    · rintro ⟨front, hline, hescape⟩
      obtain ⟨rfl, rfl⟩ := List.append_singleton_inj.1 hline
      simp [Text.endsInEscape_eq_false_iff.2 hescape]

theorem isAnchored_iff {body : Text} :
    isAnchored body = true ↔ ∃ before after, body = before ++ '/' :: after ∧ after ≠ [] := by
  unfold isAnchored
  rw [List.contains_iff_mem]
  constructor
  · intro h
    obtain ⟨before, after, hbody⟩ := List.append_of_mem h
    have hne : body ≠ [] := by
      rintro rfl
      cases h
    refine ⟨before, after ++ [body.getLast hne], ?_, by simp⟩
    rw [← List.cons_append, ← List.append_assoc, ← hbody, List.dropLast_concat_getLast]
  · rintro ⟨before, after, rfl, hne⟩
    rw [List.dropLast_append_of_ne_nil (by simp), List.dropLast_cons_of_ne_nil hne]
    simp

/-- Nothing remains of a line only if there is nothing in it but markers. -/
theorem ofTrimmed_source_eq_nil_iff {core : Text} :
    (ofTrimmed core).source = [] ↔
      core ∈ [[], ['!'], ['/'], ['/', '/'], ['!', '/'], ['!', '/', '/']] := by
  constructor
  · intro h
    have hbody : (takeDirectoryMarker (takeNegation core).2).2 ∈ [[], ['/']] := by
      obtain hcut | ⟨hcut, -⟩ :=
        dropLeadingSlash_cases (takeDirectoryMarker (takeNegation core).2).2
      · simp [hcut.trans (congrArg ('/' :: ·) h)]
      · simp [hcut.trans h]
    rw [← append_takeNegation core, ← append_directoryMarker (takeNegation core).2]
    generalize (takeDirectoryMarker (takeNegation core).2).2 = body at hbody ⊢
    simp only [List.mem_cons, List.not_mem_nil, or_false] at hbody
    obtain rfl | rfl := hbody <;>
      cases (takeNegation core).1 <;> cases (takeDirectoryMarker (takeNegation core).2).1 <;>
        decide
  · intro h
    simp only [List.mem_cons, List.not_mem_nil, or_false] at h
    obtain rfl | rfl | rfl | rfl | rfl | rfl := h <;> rfl

end RuleLine

namespace Rule

/-! ## Lines -/

/-- A trimmed line that holds no rule: it is empty, a comment, or all markers. -/
def HoldsNoRule (core : Text) : Prop :=
  core = [] ∨ core.head? = some '#' ∨
    core ∈ [['!'], ['/'], ['/', '/'], ['!', '/'], ['!', '/', '/']]

/-- The rule that a trimmed line holds. Without the mark of negation, `rest` remains of the line;
without the mark of directories, `body` remains of that; and `source` is the pattern as written. -/
structure IsReadFrom (rule : Rule) (core rest body source : Text) : Prop where
  negated_iff : rule.negated = true ↔ core.head? = some '!'
  core_eq : core = RuleLine.negationMarker rule.negated ++ rest
  /-- A `/` at the end is a mark unless it stands after an odd number of backslashes. -/
  directoryOnly_iff :
    rule.directoryOnly = true ↔ ∃ front, rest = front ++ ['/'] ∧ ¬Text.EndsInOddRun front
  rest_eq : rest = body ++ RuleLine.directoryMarker rule.directoryOnly
  /-- Any `/` counts that is not the last character. -/
  anchored_iff :
    rule.anchored = true ↔ ∃ before after, body = before ++ '/' :: after ∧ after ≠ []
  body_eq : body = '/' :: source ∨ body = source ∧ body.head? ≠ some '/'
  text_resolves : Text.Resolves source rule.text
  text_ne_nil : rule.text ≠ []
  pattern_eq : rule.pattern = patternOf source

theorem holdsNoRule_iff {core : Text} :
    HoldsNoRule core ↔
      core = [] ∨ core.head? = some '#' ∨ (RuleLine.ofTrimmed core).source = [] := by
  rw [RuleLine.ofTrimmed_source_eq_nil_iff, List.mem_cons]
  unfold HoldsNoRule
  tauto

theorem isReadFrom_ofTrimmed {core : Text} (h : ¬HoldsNoRule core) :
    ∃ rest body source, (ofRuleLine (.ofTrimmed core)).IsReadFrom core rest body source := by
  have hsource : (RuleLine.ofTrimmed core).source ≠ [] := fun hnil =>
    h (holdsNoRule_iff.2 (.inr (.inr hnil)))
  refine ⟨(RuleLine.takeNegation core).2,
    (RuleLine.takeDirectoryMarker (RuleLine.takeNegation core).2).2,
    (RuleLine.ofTrimmed core).source, ?_⟩
  exact {
    negated_iff := RuleLine.takeNegation_fst_iff
    core_eq := (RuleLine.append_takeNegation core).symm
    directoryOnly_iff := RuleLine.takeDirectoryMarker_fst_iff
    rest_eq := (RuleLine.append_directoryMarker _).symm
    anchored_iff := RuleLine.isAnchored_iff
    body_eq := RuleLine.dropLeadingSlash_cases _
    text_resolves := Text.resolves_iff.2 rfl
    text_ne_nil := fun hnil => hsource (Text.unescape_eq_nil_iff.1 hnil)
    pattern_eq := rfl }

/-- A line holds a rule unless it is blank, a comment or all markers once it is trimmed, and the
rule is the one that its cuts give. -/
theorem ofLine?_isReadFrom (line : Text) :
    ∃ core, (∀ other, Text.IsTrimmed line other ↔ other = core) ∧
      (HoldsNoRule core ∧ ofLine? line = none ∨
        ¬HoldsNoRule core ∧ ∃ rule rest body source,
          ofLine? line = some rule ∧ rule.IsReadFrom core rest body source) := by
  refine ⟨Text.trimEnd (Text.trimStart line), fun _ => Text.isTrimmed_iff, ?_⟩
  unfold ofLine?
  rw [RuleLine.parse?_eq]
  by_cases h : HoldsNoRule (Text.trimEnd (Text.trimStart line))
  · rw [if_pos (holdsNoRule_iff.1 h)]
    exact .inl ⟨h, rfl⟩
  · obtain ⟨rest, body, source, hread⟩ := isReadFrom_ofTrimmed h
    rw [if_neg fun hnone => h (holdsNoRule_iff.2 hnone)]
    exact .inr ⟨h, _, rest, body, source, rfl, hread⟩

/-- A `/` that is taken literally stays, and the one after it is a mark. -/
example : RuleLine.parse? " !a\\//  ".toList = some ⟨true, false, true, "a\\/".toList⟩ := by
  decide

end Rule

end PathIgnore
