import PathIgnore.Proofs.Rule.Grammar

/-!
# Where the end of a line is cut

Blanks and a `/` are cut off the end of a line before the pattern on it is read, by counting the
backslashes that stand before them. Reading the pattern from the left settles what is taken
literally by pairing each backslash with the character after it. Main statement: what is cut off is
what the reading would not take literally, also if it starts after the marks at the start of the
line (`ends_cut_where_plain`).
-/

namespace PathIgnore.RuleLine

/-- What may be taken off the start of a trimmed line before the pattern is read. -/
def leadingMarks : List Text :=
  [[], ['!'], ['/'], ['!', '/']]

/-- The end of a line is cut where it is plain: trimming leaves `core`, and then, the mark of
negation aside, the mark of directories is taken off to leave `body`. -/
structure EndsCutWherePlain (line core body : Text) (directoryOnly : Bool) : Prop where
  /-- Only blanks are trimmed. -/
  trailing : ∃ trailing, Text.trimStart line = core ++ trailing ∧
    ∀ c ∈ trailing, Text.isBlank c = true
  /-- A trailing blank is trimmed if the reading does not take it literally. -/
  trimmed_iff : ∀ lead ∈ leadingMarks, ∀ front c after,
    Text.trimStart line = lead ++ (front ++ c :: after) →
      (∀ d ∈ c :: after, Text.isBlank d = true) →
        (core <+: lead ++ front ↔ ¬Text.TakesLiterally front c after)
  /-- Only a `/` is taken off. -/
  rest_eq : (takeNegation core).2 = body ++ directoryMarker directoryOnly
  /-- A trailing `/` is taken off if the reading does not take it literally. -/
  marked_iff : ∀ lead ∈ leadingMarks, ∀ front, core = lead ++ (front ++ ['/']) →
    (directoryOnly = true ↔ ¬Text.TakesLiterally front '/' [])

theorem endsInEscape_append_of_mem_leadingMarks {lead : Text} (h : lead ∈ leadingMarks)
    (front : Text) : Text.endsInEscape (lead ++ front) = Text.endsInEscape front := by
  have hlead : ∀ lead ∈ leadingMarks, '\\' ∉ lead := by decide
  exact Text.endsInEscape_append_of_not_mem (hlead lead h) front

/-- The mark of negation makes no difference to the mark of directories. -/
theorem takeDirectoryMarker_takeNegation_fst (core : Text) :
    (takeDirectoryMarker (takeNegation core).2).1 = (takeDirectoryMarker core).1 := by
  unfold takeNegation
  split
  · rename_i rest
    cases rest with
    | nil => rfl
    | cons c rest =>
      rw [← List.nil_append ('!' :: c :: rest),
        takeDirectoryMarker_append_cons [] (by decide) (List.cons_ne_nil c rest)]
  · rfl

theorem endsCutWherePlain_trim (line : Text) :
    let core := Text.trimEnd (Text.trimStart line)
    let cut := takeDirectoryMarker (takeNegation core).2
    EndsCutWherePlain line core cut.2 cut.1 := by
  intro core cut
  constructor
  case trailing =>
    obtain ⟨trailing, hline, hblank, -⟩ := Text.exists_trimEnd (Text.trimStart line)
    exact ⟨trailing, hline, hblank⟩
  case trimmed_iff =>
    intro lead hlead front c after hline hblank
    have hcore : core = Text.trimEnd ((lead ++ front) ++ c :: after) := by
      rw [List.append_assoc, ← hline]
    rw [hcore, Text.trimEnd_isPrefix_iff hblank, endsInEscape_append_of_mem_leadingMarks hlead,
      Text.takesLiterally_iff, Bool.not_eq_true]
  case rest_eq => exact (append_directoryMarker _).symm
  case marked_iff =>
    intro lead hlead front hcore
    rw [takeDirectoryMarker_takeNegation_fst, hcore, ← List.append_assoc,
      takeDirectoryMarker_concat, endsInEscape_append_of_mem_leadingMarks hlead,
      Text.takesLiterally_iff]
    cases Text.endsInEscape front <;> simp

/-- An odd number of backslashes before a character says that reading from the left takes it
literally. So exactly the blanks and the `/` that are plain are cut off the end of a line. -/
theorem ends_cut_where_plain (line : Text) :
    let core := Text.trimEnd (Text.trimStart line)
    let cut := takeDirectoryMarker (takeNegation core).2
    (∀ text c after, Text.endsInEscape text = true ↔ Text.TakesLiterally text c after) ∧
      EndsCutWherePlain line core cut.2 cut.1 ∧
      ∀ parts, parse? line = some parts →
        parts.directoryOnly = cut.1 ∧ parts.source = dropLeadingSlash cut.2 := by
  intro core cut
  refine ⟨fun _ _ _ => Text.takesLiterally_iff.symm, endsCutWherePlain_trim line, ?_⟩
  intro parts hparse
  obtain ⟨rfl, -⟩ := eq_ofTrimmed_of_parse? hparse
  exact ⟨rfl, rfl⟩

/-- After a blank that is taken literally, a `/` is a mark, and the blanks after it are trimmed. -/
theorem ends_cut_where_plain_marks :
    let line := "!/a\\ /  ".toList
    let core := Text.trimEnd (Text.trimStart line)
    Text.TakesLiterally "a\\".toList ' ' "/  ".toList ∧ core <+: "!/a\\ /".toList ∧
      (takeDirectoryMarker (takeNegation core).2).1 = true := by
  intro line core
  obtain ⟨hescape, hcut, -⟩ := ends_cut_where_plain line
  have hblank : ¬Text.TakesLiterally "a\\ /".toList ' ' [' '] := by
    intro htaken
    exact absurd ((hescape _ _ _).2 htaken) (by decide)
  have hslash : ¬Text.TakesLiterally "a\\ ".toList '/' [] := by
    intro htaken
    exact absurd ((hescape _ _ _).2 htaken) (by decide)
  have hspaces : ∀ d ∈ [' ', ' '], Text.isBlank d = true := List.all_eq_true.1 (by decide)
  refine ⟨(hescape _ _ _).1 (by decide), ?_, ?_⟩
  · exact (hcut.trimmed_iff "!/".toList (by decide) _ _ _ rfl hspaces).2 hblank
  · exact (hcut.marked_iff "!/".toList (by decide) _ rfl).2 hslash

end PathIgnore.RuleLine
