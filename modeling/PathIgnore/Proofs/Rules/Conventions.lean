import PathIgnore.Proofs.Rule.Line
import PathIgnore.Proofs.Text.Lines
import PathIgnore.Rules

/-!
# Conventions of rule files

Editors write the same lines differently: with a carriage return in every line ending, with one more
newline at the end, with a byte order mark at the start. Each convention leaves the rules of a file
as they are, as long as the text suits it (`Convention.ofText_apply`), and a text still suits the
other conventions once one is followed. Main statement: a text without carriage returns and without
a mark holds the same rules under every combination of conventions (`ofText_conventions`).
-/

namespace PathIgnore

/-- A convention of how the text of a rule file is written. -/
inductive Convention where
  /-- A carriage return stands before every newline. -/
  | carriageReturns
  /-- One more newline stands at the end. -/
  | finalNewline
  /-- A byte order mark stands at the start. -/
  | byteOrderMark
  deriving DecidableEq, Repr

namespace Convention

/-- The text as the convention has it. -/
def apply : Convention → Text → Text
  | carriageReturns, text => text.flatMap fun c => if c = '\n' then ['\r', '\n'] else [c]
  | finalNewline, text => text ++ ['\n']
  | byteOrderMark, text => '\uFEFF' :: text

/-- The text as the conventions have it, followed one after another. -/
def applyAll (conventions : List Convention) (text : Text) : Text :=
  conventions.foldl (fun text convention => convention.apply text) text

/-- Whether what the convention adds to the text is told apart from the text. -/
def Suits : Convention → Text → Prop
  | carriageReturns, text => '\r' ∉ text
  | finalNewline, text => text.getLast? ≠ some '\r'
  | byteOrderMark, text => text.head? ≠ some '\uFEFF'

variable {convention other : Convention} {text : Text}

/-! ## Lines -/

theorem apply_carriageReturns_of_not_mem (h : '\n' ∉ text) :
    carriageReturns.apply text = text := by
  induction text with
  | nil => rfl
  | cons c rest ih =>
    obtain ⟨hc, hrest⟩ := List.ne_and_not_mem_of_not_mem_cons h
    rw [apply] at ih ⊢
    rw [List.flatMap_cons, ih hrest, if_neg hc.symm, List.singleton_append]

theorem apply_carriageReturns_append_newline {piece : Text} (h : '\n' ∉ piece) (rest : Text) :
    carriageReturns.apply (piece ++ '\n' :: rest) =
      (piece ++ ['\r']) ++ '\n' :: carriageReturns.apply rest := by
  have hpiece := apply_carriageReturns_of_not_mem h
  rw [apply] at hpiece ⊢
  rw [List.flatMap_append, List.flatMap_cons, hpiece, if_pos rfl]
  simp [apply]

/-- The carriage returns belong to the line endings, so the lines are the same. -/
theorem lines_apply_carriageReturns (h : '\r' ∉ text) :
    (carriageReturns.apply text).lines = text.lines := by
  induction text using Text.lineInduction with
  | last text hline => rw [apply_carriageReturns_of_not_mem hline]
  | line piece rest hpiece ih =>
    have hrest : '\r' ∉ rest := fun hmem => h (by simp [hmem])
    have hlast : piece.getLast? ≠ some '\r' :=
      fun hlast => h (List.mem_append_left _ (List.mem_of_getLast? hlast))
    have hline : '\n' ∉ piece ++ ['\r'] := by simpa using hpiece
    rw [apply_carriageReturns_append_newline hpiece, Text.lines_append_newline hline,
      Text.lines_append_newline hpiece, ih hrest, Text.dropCarriageReturn_concat, if_pos rfl,
      Text.dropCarriageReturn_of_getLast?_ne hlast]

/-- One more newline ends the last line, or else an empty line. -/
theorem lines_apply_finalNewline (h : text.getLast? ≠ some '\r') :
    (finalNewline.apply text).lines = text.lines ∨
      (finalNewline.apply text).lines = text.lines ++ [[]] := by
  rw [apply]
  induction text using Text.lineInduction with
  | last text hline =>
    rw [Text.lines_append_newline hline, Text.lines_of_not_mem hline,
      Text.dropCarriageReturn_of_getLast?_ne h]
    by_cases htext : text = []
    · exact .inr (by simp [htext])
    · exact .inl (by simp [htext])
  | line piece rest hpiece ih =>
    have hrest : rest.getLast? ≠ some '\r' := by
      intro hlast
      simp [List.getLast?_append, List.getLast?_cons, hlast] at h
    rw [List.append_assoc, List.cons_append, Text.lines_append_newline hpiece,
      Text.lines_append_newline hpiece]
    obtain hsame | hmore := ih hrest
    · exact .inl (by rw [hsame])
    · exact .inr (by rw [hmore, List.cons_append])

/-! ## Rules -/

theorem parseAll_concat_empty (lines : List Text) :
    RuleLine.parseAll (lines ++ [[]]) = RuleLine.parseAll lines := by
  have hmark : ∀ line ∈ [([] : Text)].head?, Text.dropByteOrderMark line = line := by
    rintro line ⟨⟩
    rfl
  rw [RuleLine.parseAll_append lines hmark]
  exact List.append_nil _

/-- Of two byte order marks, the second one is a part of the line. -/
theorem parseAll_mark_cons {line : Text} (h : line.head? ≠ some '\uFEFF') (rest : List Text) :
    RuleLine.parseAll (('\uFEFF' :: line) :: rest) = RuleLine.parseAll (line :: rest) := by
  rw [RuleLine.parseAll, RuleLine.parseAll, Text.dropByteOrderMark_cons,
    Text.dropByteOrderMark_of_head?_ne h]

theorem parseAll_lines_apply_byteOrderMark (h : text.head? ≠ some '\uFEFF') :
    RuleLine.parseAll (byteOrderMark.apply text).lines = RuleLine.parseAll text.lines := by
  rw [apply]
  induction text using Text.lineInduction with
  | last text hline =>
    have hmarked : '\n' ∉ '\uFEFF' :: text := by simpa using hline
    rw [Text.lines_of_not_mem hmarked, Text.lines_of_not_mem hline,
      if_neg (List.cons_ne_nil _ _), parseAll_mark_cons h]
    -- The mark makes a line of its own if there was none, but an empty line holds no rule.
    by_cases htext : text = []
    · rw [htext]
      rfl
    · rw [if_neg htext]
  | line piece rest hpiece =>
    have hmarked : '\n' ∉ '\uFEFF' :: piece := by simpa using hpiece
    have hhead : piece.head? ≠ some '\uFEFF' := by
      intro hhead
      simp [List.head?_append, hhead] at h
    rw [← List.cons_append, Text.lines_append_newline hmarked, Text.lines_append_newline hpiece,
      Text.dropCarriageReturn_cons (by decide),
      parseAll_mark_cons (Text.head?_dropCarriageReturn_ne hhead)]

/-! ## Following conventions -/

/-- A convention that suits a text leaves its rules as they are. -/
theorem ofText_apply (h : convention.Suits text) :
    Rules.ofText (convention.apply text) = Rules.ofText text := by
  unfold Rules.ofText Rules.ofLines
  cases convention with
  | carriageReturns => rw [lines_apply_carriageReturns h]
  | finalNewline =>
    obtain hsame | hmore := lines_apply_finalNewline h
    · rw [hsame]
    · rw [hmore, parseAll_concat_empty]
  | byteOrderMark => rw [parseAll_lines_apply_byteOrderMark h]

theorem suits_finalNewline_apply_carriageReturns (h : finalNewline.Suits text) :
    finalNewline.Suits (carriageReturns.apply text) := by
  cases text using List.reverseRecOn with
  | nil => exact h
  | append_singleton front c =>
    rw [Suits, List.getLast?_concat] at h
    rw [Suits, apply, List.flatMap_append, List.flatMap_singleton]
    split
    · simp
    · simpa using h

theorem suits_byteOrderMark_apply_carriageReturns (h : byteOrderMark.Suits text) :
    byteOrderMark.Suits (carriageReturns.apply text) := by
  cases text with
  | nil => exact h
  | cons c rest =>
    rw [Suits, List.head?_cons] at h
    rw [Suits, apply, List.flatMap_cons]
    split
    · simp
    · simpa using h

/-- What suits a text still suits it once another convention is followed. -/
theorem Suits.apply (h : other.Suits text) (hne : other ≠ convention) :
    other.Suits (convention.apply text) := by
  -- A newline is added at the end, and never a carriage return; a mark is added at the start only.
  cases convention with
  | carriageReturns =>
    cases other with
    | carriageReturns => exact absurd rfl hne
    | finalNewline => exact suits_finalNewline_apply_carriageReturns h
    | byteOrderMark => exact suits_byteOrderMark_apply_carriageReturns h
  | finalNewline =>
    cases other with
    | carriageReturns => simpa [Suits, Convention.apply] using h
    | finalNewline => exact absurd rfl hne
    | byteOrderMark =>
      cases text with
      | nil => simp [Suits, Convention.apply]
      | cons c rest => exact h
  | byteOrderMark =>
    cases other with
    | carriageReturns => simpa [Suits, Convention.apply] using h
    | finalNewline =>
      rw [Suits] at h
      rw [Suits, Convention.apply, List.getLast?_cons]
      cases hlast : text.getLast? with
      | none => simp
      | some c => simpa [hlast] using h
    | byteOrderMark => exact absurd rfl hne

theorem ofText_applyAll {conventions : List Convention} (hnodup : conventions.Nodup)
    (h : ∀ convention ∈ conventions, convention.Suits text) :
    Rules.ofText (applyAll conventions text) = Rules.ofText text := by
  -- What is carried along is that the text suits all conventions that are still to be followed.
  induction conventions generalizing text with
  | nil => rfl
  | cons convention rest ih =>
    obtain ⟨hmem, hrest⟩ := List.nodup_cons.1 hnodup
    have hsuits : ∀ other ∈ rest, other.Suits (convention.apply text) := by
      intro other hother
      refine (h other (List.mem_cons_of_mem _ hother)).apply ?_
      rintro rfl
      exact hmem hother
    calc Rules.ofText (applyAll (convention :: rest) text)
        = Rules.ofText (applyAll rest (convention.apply text)) := rfl
      _ = Rules.ofText (convention.apply text) := ih hrest hsuits
      _ = Rules.ofText text := ofText_apply (h convention List.mem_cons_self)

/-- A text without carriage returns and without a byte order mark at its start holds the same rules
whichever conventions it follows, in whichever order. -/
theorem ofText_conventions {text : Text} (hreturn : '\r' ∉ text)
    (hmark : text.head? ≠ some '\uFEFF') {conventions : List Convention}
    (hnodup : conventions.Nodup) :
    Rules.ofText (applyAll conventions text) = Rules.ofText text := by
  refine ofText_applyAll hnodup fun convention _ => ?_
  cases convention with
  | carriageReturns => exact hreturn
  | finalNewline =>
    intro hlast
    exact hreturn (List.mem_of_getLast? hlast)
  | byteOrderMark => exact hmark

/-- A line that ends in a backslash takes no carriage return literally. -/
theorem ofText_conventions_backslash :
    let text := "a\\\n!b\\".toList
    let written := "\uFEFFa\\\r\n!b\\\r\n".toList
    '\r' ∉ text ∧ text.head? ≠ some '\uFEFF' ∧
      [finalNewline, byteOrderMark, carriageReturns].Nodup ∧
      applyAll [finalNewline, byteOrderMark, carriageReturns] text = written ∧
      Rules.ofText written = Rules.ofText text ∧
      (Rules.ofText written).map Rule.display = ["a\\".toList, "!b\\".toList] := by
  intro text written
  have hreturn : '\r' ∉ text := by decide
  have hmark : text.head? ≠ some '\uFEFF' := by decide
  have hnodup : [finalNewline, byteOrderMark, carriageReturns].Nodup := by decide
  have hwritten : applyAll [finalNewline, byteOrderMark, carriageReturns] text = written := by
    decide
  have hsame := ofText_conventions hreturn hmark hnodup
  rw [hwritten] at hsame
  refine ⟨hreturn, hmark, hnodup, hwritten, hsame, ?_⟩
  rw [hsame]
  decide

end Convention

end PathIgnore
