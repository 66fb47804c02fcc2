import Mathlib.Data.List.Induction
import Mathlib.Logic.Basic
import PathIgnore.Text.Escape

/-!
# Escapes at the end of a text

Whether a text ends in an escape, and what trimming its end leaves, depends only on what stands
after the last character that is neither a backslash nor a blank. Escapes are told from the end by
the parity of a run of backslashes and from the start by pairing them up, and the two agree on every
character of a text (`takesLiterally_iff`).
-/

namespace PathIgnore.Text

/-- `text` is what `source` stands for: a backslash takes the next character literally, and one at
the very end stands for itself. -/
inductive Resolves : Text → Text → Prop where
  | nil : Resolves [] []
  | escaped {c : Char} {source text : Text} (more : Resolves source text) :
      Resolves ('\\' :: c :: source) (c :: text)
  | dangling : Resolves ['\\'] ['\\']
  | plain {c : Char} {source text : Text} (hescape : c ≠ '\\') (more : Resolves source text) :
      Resolves (c :: source) (c :: text)

theorem resolves_unescape (source : Text) : Resolves source (unescape source) := by
  induction source using glyphs.induct with
  | case1 => exact .nil
  | case2 c rest ih => exact .escaped ih
  | case3 c rest hescape ih =>
    by_cases hc : c = '\\'
    · cases rest with
      | nil => rw [hc]; exact .dangling
      | cons d rest => exact absurd rfl (hescape d rest hc)
    · rw [unescape_cons_of_ne hc]
      exact .plain hc ih

theorem resolves_iff {source text : Text} : Resolves source text ↔ text = unescape source := by
  constructor
  · intro h
    induction h with
    | nil => rfl
    | escaped _ ih => rw [unescape_escape, ih]
    | dangling => rfl
    | plain hescape _ ih => rw [unescape_cons_of_ne hescape, ih]
  · rintro rfl
    exact resolves_unescape source

theorem unescape_of_not_mem {text : Text} (h : '\\' ∉ text) : unescape text = text := by
  induction text with
  | nil => rfl
  | cons c text ih =>
    obtain ⟨hc, htext⟩ := List.ne_and_not_mem_of_not_mem_cons h
    rw [unescape_cons_of_ne hc.symm, ih htext]

theorem escapeExcept_append (keep : Char → Bool) (first second : Text) :
    escapeExcept keep (first ++ second) =
      escapeExcept keep first ++ escapeExcept keep second := by
  induction first with
  | nil => rfl
  | cons c first ih =>
    simp only [List.cons_append, escapeExcept, ih]
    split <;> rfl

@[simp] theorem escapeExcept_eq_nil_iff {keep : Char → Bool} {text : Text} :
    escapeExcept keep text = [] ↔ text = [] := by
  cases text with
  | nil => simp [escapeExcept]
  | cons c text => by_cases hc : keep c <;> simp [escapeExcept, hc]

/-- Every backslash of a quoted text is paired, so nothing after it is taken literally. -/
theorem endsInEscape_escapeExcept {keep : Char → Bool} (h : keep '\\' = false) (text : Text) :
    endsInEscape (escapeExcept keep text) = false := by
  induction text using List.reverseRecOn with
  | nil => rfl
  | append_singleton text c ih =>
    rw [escapeExcept_append]
    by_cases hc : c = '\\'
    · have hpair : escapeExcept keep [c] = ['\\'] ++ ['\\'] := by simp [escapeExcept, hc, h]
      rw [hpair, ← List.append_assoc, endsInEscape_concat_backslash, endsInEscape_concat_backslash,
        ih]
      rfl
    · by_cases hkeep : keep c
      · have hself : escapeExcept keep [c] = [c] := by simp [escapeExcept, hkeep]
        rw [hself, endsInEscape_concat_of_ne hc]
      · have hpair : escapeExcept keep [c] = ['\\'] ++ [c] := by simp [escapeExcept, hkeep]
        rw [hpair, ← List.append_assoc, endsInEscape_concat_of_ne hc]

@[simp] theorem unescape_eq_nil_iff {source : Text} : unescape source = [] ↔ source = [] := by
  cases source using glyphs.fun_cases <;> simp [unescape, glyphs]

theorem startsOddRun_append_cons {c : Char} (h : c ≠ '\\') (reversed before : Text) :
    startsOddRun (reversed ++ c :: before) = startsOddRun reversed := by
  induction reversed with
  | nil => exact startsOddRun_cons_of_ne h before
  | cons d reversed ih =>
    rw [List.cons_append]
    rcases eq_or_ne d '\\' with rfl | hd
    · rw [startsOddRun_cons_backslash, startsOddRun_cons_backslash, ih]
    · rw [startsOddRun_cons_of_ne hd, startsOddRun_cons_of_ne hd]

theorem endsInEscape_append_cons (before : Text) {c : Char} (h : c ≠ '\\') (text : Text) :
    endsInEscape (before ++ c :: text) = endsInEscape text := by
  unfold endsInEscape
  rw [List.reverse_append, List.reverse_cons, List.append_assoc]
  exact startsOddRun_append_cons h text.reverse before.reverse

/-! ## Reading from both sides -/

/-- A pair of backslashes before a text does not change the parity of the run that ends it. -/
theorem startsOddRun_append_pair (reversed : Text) :
    startsOddRun (reversed ++ ['\\', '\\']) = startsOddRun reversed := by
  induction reversed with
  | nil => rfl
  | cons c reversed ih =>
    rw [List.cons_append]
    rcases eq_or_ne c '\\' with rfl | hc
    · rw [startsOddRun_cons_backslash, startsOddRun_cons_backslash, ih]
    · rw [startsOddRun_cons_of_ne hc, startsOddRun_cons_of_ne hc]

/-- An escape is complete with the character that it takes. -/
@[simp] theorem endsInEscape_escape (c : Char) (rest : Text) :
    endsInEscape ('\\' :: c :: rest) = endsInEscape rest := by
  rcases eq_or_ne c '\\' with rfl | hc
  · unfold endsInEscape
    rw [List.reverse_cons, List.reverse_cons, List.append_assoc]
    exact startsOddRun_append_pair rest.reverse
  · exact endsInEscape_append_cons ['\\'] hc rest

theorem endsInEscape_cons_of_ne {c : Char} (h : c ≠ '\\') (rest : Text) :
    endsInEscape (c :: rest) = endsInEscape rest :=
  endsInEscape_append_cons [] h rest

theorem endsInEscape_append_of_not_mem {before : Text} (h : '\\' ∉ before) (text : Text) :
    endsInEscape (before ++ text) = endsInEscape text := by
  induction before with
  | nil => rfl
  | cons c before ih =>
    obtain ⟨hc, hbefore⟩ := List.ne_and_not_mem_of_not_mem_cons h
    rw [List.cons_append, endsInEscape_cons_of_ne hc.symm, ih hbefore]

/-- Two texts are read one after the other, unless an escape is open between them. -/
theorem glyphs_append {first : Text} (h : endsInEscape first = false) (second : Text) :
    glyphs (first ++ second) = glyphs first ++ glyphs second := by
  induction first using glyphs.induct with
  | case1 => rfl
  | case2 c rest ih =>
    rw [endsInEscape_escape] at h
    rw [List.cons_append, List.cons_append, glyphs_escape, glyphs_escape, ih h, List.cons_append]
  | case3 c rest hescape ih =>
    by_cases hc : c = '\\'
    · cases rest with
      | nil =>
        rw [hc] at h
        cases h
      | cons d rest => exact absurd rfl (hescape d rest hc)
    · rw [endsInEscape_cons_of_ne hc] at h
      rw [List.cons_append, glyphs_cons_of_ne hc, glyphs_cons_of_ne hc, ih h, List.cons_append]

theorem exists_of_endsInEscape {text : Text} (h : endsInEscape text = true) :
    ∃ front, text = front ++ ['\\'] ∧ endsInEscape front = false := by
  cases text using List.reverseRecOn with
  | nil => cases h
  | append_singleton front c =>
    rcases eq_or_ne c '\\' with rfl | hc
    · exact ⟨front, rfl, by simpa using h⟩
    · rw [endsInEscape_concat_of_ne hc] at h
      cases h

/-- The last character of a text is taken literally just if an escape is open before it. -/
theorem getLast?_glyphs_concat (front : Text) (c : Char) :
    (glyphs (front ++ [c])).getLast? =
      some (if endsInEscape front then .escaped c else .plain c) := by
  cases h : endsInEscape front with
  | true =>
    obtain ⟨before, rfl, hbefore⟩ := exists_of_endsInEscape h
    rw [List.append_assoc, glyphs_append hbefore]
    exact List.getLast?_concat
  | false =>
    have hlast : glyphs [c] = [.plain c] := by
      by_cases hc : c = '\\'
      · rw [hc, glyphs_dangling]
      · rw [glyphs_cons_of_ne hc, glyphs_nil]
    rw [glyphs_append h, hlast]
    exact List.getLast?_concat

theorem glyphs_append_cons {first : Text} (h : endsInEscape first = false) {c : Char}
    (hc : c ≠ '\\') (rest : Text) :
    glyphs (first ++ c :: rest) = glyphs first ++ .plain c :: glyphs rest := by
  rw [glyphs_append h, glyphs_cons_of_ne hc]

/-- The characters that a glyph was read from. -/
def Glyph.written : Glyph → Text
  | .plain c => [c]
  | .escaped c => ['\\', c]

theorem flatMap_written_glyphs (text : Text) : (glyphs text).flatMap Glyph.written = text := by
  induction text using glyphs.induct with
  | case1 => rfl
  | case2 c rest ih =>
    rw [glyphs_escape, List.flatMap_cons, ih]
    rfl
  | case3 c rest hescape ih =>
    rw [glyphs]
    · rw [List.flatMap_cons, ih]
      rfl
    · exact hescape

/-- Reading `before ++ c :: after` from the left, `c` is the second character of a pair. This is the
reading by which the escapes of a text are resolved and the tokens of a pattern are found. -/
def TakesLiterally (before : Text) (c : Char) (after : Text) : Prop :=
  ∃ first second, glyphs (before ++ c :: after) = first ++ .escaped c :: second ∧
    before = first.flatMap Glyph.written ++ ['\\']

/-- Counting backslashes from the right tells what reading from the left does. -/
theorem takesLiterally_iff {before : Text} {c : Char} {after : Text} :
    TakesLiterally before c after ↔ endsInEscape before = true := by
  constructor
  · rintro ⟨first, second, hread, hbefore⟩
    by_contra hopen
    rw [Bool.not_eq_true] at hopen
    rw [glyphs_append hopen] at hread
    have hwritten := flatMap_written_glyphs before
    -- The pair stands across the end of `before`, where one reading ends and the next starts.
    rcases List.append_eq_append_iff.1 hread with ⟨middle, rfl, -⟩ | ⟨middle, hfirst, hmiddle⟩
    · rw [List.flatMap_append, hwritten] at hbefore
      simpa using congrArg List.length hbefore
    · rw [hfirst, List.flatMap_append, hbefore, List.append_cancel_left_eq] at hwritten
      cases middle with
      | nil => cases hwritten
      | cons glyph middle =>
        obtain ⟨rfl, -⟩ := List.cons.inj hmiddle
        cases hwritten
  · intro hopen
    obtain ⟨front, rfl, hfront⟩ := exists_of_endsInEscape hopen
    refine ⟨glyphs front, glyphs after, ?_, ?_⟩
    · rw [List.append_assoc, glyphs_append hfront]
      rfl
    · rw [flatMap_written_glyphs]

/-- A character is taken literally if an escape is open before it. -/
theorem escaped_mem_glyphs {first : Text} (h : endsInEscape first = true) (c : Char)
    (rest : Text) : .escaped c ∈ glyphs (first ++ c :: rest) := by
  obtain ⟨before, after, hread, -⟩ := takesLiterally_iff.2 h
  rw [hread]
  exact List.mem_append_right before List.mem_cons_self

theorem char_mem_of_mem_glyphs {text : Text} {glyph : Glyph} (h : glyph ∈ glyphs text) :
    glyph.char ∈ text := by
  induction text using glyphs.induct with
  | case1 => cases h
  | case2 c rest ih =>
    rcases List.mem_cons.1 h with rfl | h
    · exact List.mem_cons_of_mem _ List.mem_cons_self
    · exact List.mem_cons_of_mem _ (List.mem_cons_of_mem _ (ih h))
  | case3 c rest hescape ih =>
    rw [glyphs] at h
    · rcases List.mem_cons.1 h with rfl | h
      · exact List.mem_cons_self
      · exact List.mem_cons_of_mem _ (ih h)
    · exact hescape

/-! ## Trimming -/

theorem trimEndReversed_append_cons {c : Char} (hblank : isBlank c = false) (h : c ≠ '\\')
    (reversed before : Text) :
    trimEndReversed (reversed ++ c :: before) = trimEndReversed reversed ++ c :: before := by
  induction reversed with
  | nil =>
    simp only [List.nil_append, trimEndReversed, hblank, Bool.false_and, Bool.false_eq_true,
      if_false]
  | cons d reversed ih =>
    rw [List.cons_append, trimEndReversed, trimEndReversed, startsOddRun_append_cons h, ih]
    split
    · rfl
    · rfl

theorem trimEnd_append_cons (before : Text) {c : Char} (hblank : isBlank c = false) (h : c ≠ '\\')
    (text : Text) : trimEnd (before ++ c :: text) = before ++ c :: trimEnd text := by
  unfold trimEnd
  rw [List.reverse_append, List.reverse_cons, List.append_assoc, List.singleton_append,
    trimEndReversed_append_cons hblank h]
  simp

theorem trimEndReversed_trimEndReversed (reversed : Text) :
    trimEndReversed (trimEndReversed reversed) = trimEndReversed reversed := by
  induction reversed with
  | nil => rfl
  | cons c reversed ih =>
    rw [trimEndReversed]
    split
    · exact ih
    · rename_i hkept
      rw [trimEndReversed, if_neg hkept]

@[simp] theorem trimEnd_trimEnd (text : Text) : trimEnd (trimEnd text) = trimEnd text := by
  unfold trimEnd
  rw [List.reverse_reverse, trimEndReversed_trimEndReversed]

theorem trimStart_cons_of_not_blank {c : Char} (h : isBlank c = false) (text : Text) :
    trimStart (c :: text) = c :: text := by
  unfold trimStart
  rw [List.dropWhile_cons_of_neg (by simp [h])]

end PathIgnore.Text
