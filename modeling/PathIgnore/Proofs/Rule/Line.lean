import Mathlib.Data.List.Induction
import PathIgnore.Proofs.Text.Escape
import PathIgnore.Rule.Line

/-!
# Reading written rules

The text of a pattern, with the marker of a directory after it, is read back from every line in
which it stands at the start (`parse?_body`) or after a leading `/` (`parse?_written`). That it was
read from some line is enough for this (`isWritten_of_parse?`), and what is written before it makes
no difference (`isWritten_append_cons_iff`).
-/

namespace PathIgnore.RuleLine

/-- The marker of a negated rule. -/
def negationMarker (negated : Bool) : Text :=
  if negated then ['!'] else []

/-- The marker of a rule that is limited to directories. -/
def directoryMarker (directoryOnly : Bool) : Text :=
  if directoryOnly then ['/'] else []

/-- The text may stand for a pattern at the end of a line: the end of the line is not trimmed, and
of what stands there exactly the marker is taken off. -/
structure IsWritten (source : Text) (directoryOnly : Bool) : Prop where
  ne_nil : source ≠ []
  trimEnd_eq :
    Text.trimEnd (source ++ directoryMarker directoryOnly) =
      source ++ directoryMarker directoryOnly
  takeDirectoryMarker_eq :
    takeDirectoryMarker (source ++ directoryMarker directoryOnly) = (directoryOnly, source)

/-! ## Markers -/

theorem takeDirectoryMarker_append_cons (before : Text) {c : Char} (h : c ≠ '\\') {text : Text}
    (hne : text ≠ []) :
    takeDirectoryMarker (before ++ c :: text) =
      ((takeDirectoryMarker text).1, before ++ c :: (takeDirectoryMarker text).2) := by
  cases text using List.reverseRecOn with
  | nil => exact absurd rfl hne
  | append_singleton front last =>
    have hline : before ++ c :: (front ++ [last]) = (before ++ c :: front) ++ [last] := by simp
    rw [hline, takeDirectoryMarker_concat, takeDirectoryMarker_concat,
      Text.endsInEscape_append_cons before h]
    split
    · rfl
    · simp

theorem append_directoryMarker (line : Text) :
    (takeDirectoryMarker line).2 ++ directoryMarker (takeDirectoryMarker line).1 = line := by
  cases line using List.reverseRecOn with
  | nil => rfl
  | append_singleton front last =>
    rw [takeDirectoryMarker_concat]
    split
    · rename_i hmarker
      obtain rfl : last = '/' := by
        rw [Bool.and_eq_true, decide_eq_true_eq] at hmarker
        exact hmarker.1
      rfl
    · simp [directoryMarker]

theorem dropLeadingSlash_cases (body : Text) :
    body = '/' :: dropLeadingSlash body ∨
      body = dropLeadingSlash body ∧ body.head? ≠ some '/' := by
  cases body with
  | nil => exact .inr ⟨rfl, by simp⟩
  | cons c rest =>
    by_cases hc : c = '/'
    · rw [hc]
      exact .inl rfl
    · have hhead : (c :: rest).head? ≠ some '/' := by simpa using hc
      exact .inr ⟨(dropLeadingSlash_of_head?_ne hhead).symm, hhead⟩

theorem isAnchored_slash_cons {source : Text} (h : source ≠ []) :
    isAnchored ('/' :: source) = true := by
  unfold isAnchored
  rw [List.dropLast_cons_of_ne_nil h]
  rfl

/-! ## Trimmed lines -/

/-- The parts that a trimmed line is cut into, whether or not it holds a rule. -/
def ofTrimmed (core : Text) : RuleLine where
  negated := (takeNegation core).1
  anchored := isAnchored (takeDirectoryMarker (takeNegation core).2).2
  directoryOnly := (takeDirectoryMarker (takeNegation core).2).1
  source := dropLeadingSlash (takeDirectoryMarker (takeNegation core).2).2

theorem parse?_eq (line : Text) :
    parse? line =
      if Text.trimEnd (Text.trimStart line) = [] ∨
          (Text.trimEnd (Text.trimStart line)).head? = some '#' ∨
          (ofTrimmed (Text.trimEnd (Text.trimStart line))).source = [] then none
      else some (ofTrimmed (Text.trimEnd (Text.trimStart line))) := by
  unfold parse? ofTrimmed
  simp only [Bool.or_eq_true, List.isEmpty_iff, decide_eq_true_eq]
  split
  · rename_i hskip
    rw [if_pos (by tauto)]
  · rename_i hskip
    split <;> rename_i hsource
    · rw [if_pos (.inr (.inr hsource))]
    · rw [if_neg (by tauto)]

theorem eq_ofTrimmed_of_parse? {line : Text} {parts : RuleLine} (h : parse? line = some parts) :
    parts = ofTrimmed (Text.trimEnd (Text.trimStart line)) ∧ parts.source ≠ [] := by
  rw [parse?_eq] at h
  split at h
  · cases h
  · rename_i hrule
    cases h
    exact ⟨rfl, fun hnil => hrule (.inr (.inr hnil))⟩

/-! ## Written patterns -/

theorem isWritten_append_cons_iff (before : Text) {c : Char} (hblank : Text.isBlank c = false)
    (h : c ≠ '\\') {source : Text} (hne : source ≠ []) {directoryOnly : Bool} :
    IsWritten (before ++ c :: source) directoryOnly ↔ IsWritten source directoryOnly := by
  have hrest : source ++ directoryMarker directoryOnly ≠ [] := by simp [hne]
  constructor
  · rintro ⟨-, htrim, hmarker⟩
    rw [List.append_assoc, List.cons_append, Text.trimEnd_append_cons before hblank h,
      List.append_cancel_left_eq, List.cons_inj_right] at htrim
    rw [List.append_assoc, List.cons_append, takeDirectoryMarker_append_cons before h hrest,
      Prod.mk.injEq, List.append_cancel_left_eq, List.cons_inj_right] at hmarker
    exact ⟨hne, htrim, Prod.ext hmarker.1 hmarker.2⟩
  · rintro ⟨-, htrim, hmarker⟩
    refine ⟨by simp, ?_, ?_⟩
    · rw [List.append_assoc, List.cons_append, Text.trimEnd_append_cons before hblank h, htrim]
    · rw [List.append_assoc, List.cons_append, takeDirectoryMarker_append_cons before h hrest,
        hmarker]

theorem trimEnd_takeNegation {line : Text} (h : Text.trimEnd line = line) :
    Text.trimEnd (takeNegation line).2 = (takeNegation line).2 := by
  unfold takeNegation
  split
  · rename_i rest
    rw [← List.nil_append ('!' :: rest), Text.trimEnd_append_cons [] (by decide) (by decide)] at h
    exact (List.cons.inj h).2
  · exact h

theorem isWritten_takeDirectoryMarker {line : Text} (h : Text.trimEnd line = line)
    (hne : (takeDirectoryMarker line).2 ≠ []) :
    IsWritten (takeDirectoryMarker line).2 (takeDirectoryMarker line).1 := by
  refine ⟨hne, ?_, ?_⟩
  · rw [append_directoryMarker, h]
  · rw [append_directoryMarker]

theorem IsWritten.dropLeadingSlash {body : Text} {directoryOnly : Bool}
    (h : IsWritten body directoryOnly) (hne : RuleLine.dropLeadingSlash body ≠ []) :
    IsWritten (RuleLine.dropLeadingSlash body) directoryOnly := by
  rcases dropLeadingSlash_cases body with heq | ⟨heq, -⟩
  · rw [heq] at h
    exact (isWritten_append_cons_iff [] (by decide) (by decide) hne).1 h
  · rwa [← heq]

/-- Trimming has stopped at the end of the pattern, or at the marker after it. -/
theorem isWritten_of_parse? {line : Text} {parts : RuleLine} (h : parse? line = some parts) :
    IsWritten parts.source parts.directoryOnly := by
  obtain ⟨rfl, hne⟩ := eq_ofTrimmed_of_parse? h
  have hrest := trimEnd_takeNegation (Text.trimEnd_trimEnd (Text.trimStart line))
  refine (isWritten_takeDirectoryMarker hrest ?_).dropLeadingSlash hne
  intro hnil
  exact hne (congrArg RuleLine.dropLeadingSlash hnil)

/-- What stands between the marks of a line is read back. Unless the line is negated, its first
character may not be taken for a blank, a comment or a mark. -/
theorem parse?_body {body : Text} {directoryOnly : Bool} (h : IsWritten body directoryOnly)
    {negated : Bool}
    (hstart : negated = false → ∀ c ∈ body.head?, Text.isBlank c = false ∧ c ≠ '#' ∧ c ≠ '!')
    (hne : dropLeadingSlash body ≠ []) :
    parse? (negationMarker negated ++ (body ++ directoryMarker directoryOnly)) =
      some ⟨negated, isAnchored body, directoryOnly, dropLeadingSlash body⟩ := by
  obtain ⟨c, front, rfl⟩ := List.exists_cons_of_ne_nil h.ne_nil
  have htrim := h.trimEnd_eq
  have hmarker := h.takeDirectoryMarker_eq
  have hrest : (c :: front ++ directoryMarker directoryOnly).head? = some c := rfl
  generalize c :: front ++ directoryMarker directoryOnly = rest at htrim hmarker hrest ⊢
  obtain ⟨tail, rfl⟩ := List.head?_eq_some_iff.1 hrest
  -- Neither `!` nor the first character is blank, so nothing is trimmed at the start, and at the
  -- end nothing before the body counts.
  have htrimmed : Text.trimEnd (Text.trimStart (negationMarker negated ++ c :: tail)) =
      negationMarker negated ++ c :: tail := by
    cases negated with
    | false =>
      obtain ⟨hblank, -⟩ := hstart rfl c rfl
      exact (congrArg Text.trimEnd (Text.trimStart_cons_of_not_blank hblank tail)).trans htrim
    | true =>
      have hmark := Text.trimEnd_append_cons [] (by decide : Text.isBlank '!' = false) (by decide)
        (c :: tail)
      have hkept := Text.trimStart_cons_of_not_blank (by decide : Text.isBlank '!' = false)
        (c :: tail)
      exact (congrArg Text.trimEnd hkept).trans (hmark.trans (by rw [htrim]; rfl))
  have hnegation : takeNegation (negationMarker negated ++ c :: tail) = (negated, c :: tail) := by
    cases negated with
    | false =>
      obtain ⟨-, -, hmark⟩ := hstart rfl c rfl
      have hhead : (c :: tail).head? ≠ some '!' := by simpa using hmark
      exact takeNegation_of_head?_ne hhead
    | true => rfl
  have hparts : ofTrimmed (negationMarker negated ++ c :: tail) =
      ⟨negated, isAnchored (c :: front), directoryOnly, dropLeadingSlash (c :: front)⟩ := by
    simp only [ofTrimmed, hnegation, hmarker]
  rw [parse?_eq, htrimmed, hparts, if_neg]
  rintro (hnil | hcomment | hnil)
  · cases negated <;> cases hnil
  · cases negated with
    | false =>
      obtain ⟨-, hmark, -⟩ := hstart rfl c rfl
      exact hmark (Option.some.inj hcomment)
    | true => cases hcomment
  · exact hne hnil

/-- A written pattern is read back. The `/` before it ties it to the directory of the file. -/
theorem parse?_written {source : Text} {directoryOnly : Bool}
    (h : IsWritten source directoryOnly) (negated : Bool) :
    parse? (negationMarker negated ++ '/' :: (source ++ directoryMarker directoryOnly)) =
      some ⟨negated, true, directoryOnly, source⟩ := by
  have hbody : IsWritten ('/' :: source) directoryOnly :=
    (isWritten_append_cons_iff [] (by decide) (by decide) h.ne_nil).2 h
  have hstart : negated = false → ∀ c ∈ ('/' :: source).head?,
      Text.isBlank c = false ∧ c ≠ '#' ∧ c ≠ '!' := by
    rintro - c ⟨⟩
    decide
  have hread := parse?_body hbody hstart h.ne_nil
  rwa [isAnchored_slash_cons h.ne_nil] at hread

/-! ## Files -/

theorem exists_of_mem_parseAll {lines : List Text} {parts : RuleLine} (h : parts ∈ parseAll lines) :
    ∃ line, parse? line = some parts := by
  cases lines with
  | nil => cases h
  | cons first rest =>
    obtain ⟨line, -, hparse⟩ := List.mem_filterMap.1 h
    exact ⟨line, hparse⟩

theorem parseAll_eq_filterMap {lines : List Text}
    (h : ∀ line ∈ lines.head?, Text.dropByteOrderMark line = line) :
    parseAll lines = lines.filterMap parse? := by
  cases lines with
  | nil => rfl
  | cons line rest => rw [parseAll, h line rfl]

/-- Only at the start of a file is a byte order mark dropped. -/
theorem parseAll_append (first : List Text) {second : List Text}
    (h : ∀ line ∈ second.head?, Text.dropByteOrderMark line = line) :
    parseAll (first ++ second) = parseAll first ++ parseAll second := by
  cases first with
  | nil => rfl
  | cons line rest =>
    rw [parseAll_eq_filterMap h, List.cons_append, parseAll, ← List.cons_append,
      List.filterMap_append, parseAll]

end PathIgnore.RuleLine
