import Mathlib.Data.List.Induction
import Mathlib.Data.List.TakeWhile
import PathIgnore.Proofs.Text.Escape

/-!
# What trimming leaves

`IsTrimmed` says without a scan what is left of a line once the blanks around it are taken off, and
`EndsInOddRun` when a blank at the end is taken literally and stays. Main statements: trimming
leaves exactly this (`isTrimmed_iff`), and it leaves the same if there are more blanks around the
line (`IsTrimmed.between_blanks`).
-/

namespace PathIgnore.Text

/-- The text ends in an odd number of backslashes. -/
def EndsInOddRun (text : Text) : Prop :=
  ∃ (before : Text) (n : Nat),
    text = before ++ List.replicate (2 * n + 1) '\\' ∧ before.getLast? ≠ some '\\'

/-- `core` is what is left of `line` once the blanks around it are taken off. At the end, a blank
after an odd number of backslashes stays, and with it all that stands before it. -/
structure IsTrimmed (line core : Text) : Prop where
  /-- Only blanks are taken off, and none after an odd number of backslashes. -/
  split : ∃ leading trailing, line = leading ++ (core ++ trailing) ∧
    (∀ c ∈ leading, isBlank c = true) ∧ (∀ c ∈ trailing, isBlank c = true) ∧
      (trailing ≠ [] → ¬EndsInOddRun core)
  /-- No blank is left at the start. -/
  start : ∀ c ∈ core.head?, isBlank c = false
  /-- No blank is left at the end, unless it stands after an odd number of backslashes. -/
  stop : ∀ front c, core = front ++ [c] → isBlank c = true → EndsInOddRun front

/-! ## Runs of backslashes -/

theorem exists_replicate_backslash (text : Text) :
    ∃ before n, text = before ++ List.replicate n '\\' ∧ before.getLast? ≠ some '\\' := by
  induction text using List.reverseRecOn with
  | nil => exact ⟨[], 0, rfl, by simp⟩
  | append_singleton front c ih =>
    by_cases hc : c = '\\'
    · obtain ⟨before, n, hfront, hbefore⟩ := ih
      refine ⟨before, n + 1, ?_, hbefore⟩
      rw [hc, hfront, List.replicate_succ', List.append_assoc]
    · exact ⟨front ++ [c], 0, by simp, by simpa using hc⟩

theorem endsInEscape_of_getLast?_ne {text : Text} (h : text.getLast? ≠ some '\\') :
    endsInEscape text = false := by
  cases text using List.reverseRecOn with
  | nil => rfl
  | append_singleton front c => exact endsInEscape_concat_of_ne (by simpa using h) front

theorem endsInEscape_append_replicate {before : Text} (h : before.getLast? ≠ some '\\') (n : Nat) :
    endsInEscape (before ++ List.replicate n '\\') = decide (n % 2 = 1) := by
  induction n with
  | zero => simpa using endsInEscape_of_getLast?_ne h
  | succ n ih =>
    rw [List.replicate_succ', ← List.append_assoc, endsInEscape_concat_backslash, ih]
    obtain hn | hn := Nat.mod_two_eq_zero_or_one n <;> simp [Nat.add_mod, hn]

/-- Counting from the end, what follows is taken literally after an odd number of backslashes. -/
theorem endsInEscape_eq_true_iff {text : Text} :
    endsInEscape text = true ↔ EndsInOddRun text := by
  constructor
  · intro h
    obtain ⟨before, n, rfl, hbefore⟩ := exists_replicate_backslash text
    have hodd : n % 2 = 1 := by simpa [endsInEscape_append_replicate hbefore] using h
    exact ⟨before, n / 2, by congr; omega, hbefore⟩
  · rintro ⟨before, n, rfl, hbefore⟩
    simp [endsInEscape_append_replicate hbefore, Nat.add_mod]

theorem endsInEscape_eq_false_iff {text : Text} :
    endsInEscape text = false ↔ ¬EndsInOddRun text := by
  rw [← endsInEscape_eq_true_iff, Bool.not_eq_true]

theorem ne_backslash_of_isBlank {c : Char} (h : isBlank c = true) : c ≠ '\\' := by
  rintro rfl
  rw [isBlank_backslash] at h
  cases h

/-- Blanks before a text do not change the run of backslashes that ends it. -/
theorem endsInEscape_append_of_blank {blanks : Text} (h : ∀ c ∈ blanks, isBlank c = true)
    (text : Text) : endsInEscape (blanks ++ text) = endsInEscape text :=
  endsInEscape_append_of_not_mem (fun hmem => ne_backslash_of_isBlank (h _ hmem) rfl) text

/-! ## Trimming -/

theorem exists_trimStart (line : Text) :
    ∃ leading, line = leading ++ trimStart line ∧ ∀ c ∈ leading, isBlank c = true :=
  ⟨line.takeWhile isBlank, List.takeWhile_append_dropWhile.symm,
    fun _ hc => List.mem_takeWhile_imp hc⟩

theorem isBlank_of_mem_head?_trimStart {line : Text} {c : Char} (h : c ∈ (trimStart line).head?) :
    isBlank c = false := by
  have hhead := List.head?_dropWhile_not isBlank line
  rw [trimStart] at h
  simpa [Option.mem_def.1 h] using hhead

/-- A blank that nothing takes literally is trimmed, and then no blank before it is. -/
theorem trimEnd_append_of_blank {text blanks : Text} (hblanks : ∀ c ∈ blanks, isBlank c = true)
    (h : blanks ≠ [] → endsInEscape text = false) : trimEnd (text ++ blanks) = trimEnd text := by
  induction blanks using List.reverseRecOn with
  | nil => rw [List.append_nil]
  | append_singleton front c ih =>
    have hc : isBlank c = true := hblanks c (by simp)
    have hfront : ∀ d ∈ front, isBlank d = true := fun d hd => hblanks d (by simp [hd])
    have hescape : endsInEscape (text ++ front) = false := by
      cases front using List.reverseRecOn with
      | nil => simpa using h
      | append_singleton front d =>
        have hd : isBlank d = true := hfront d (by simp)
        rw [← List.append_assoc, endsInEscape_concat_of_ne (ne_backslash_of_isBlank hd)]
    rw [← List.append_assoc, trimEnd_concat, hc, hescape, Bool.not_false, Bool.and_self, if_pos rfl]
    exact ih hfront fun _ => h (by simp)

theorem trimEnd_eq_self {text : Text}
    (h : ∀ front c, text = front ++ [c] → isBlank c = true → endsInEscape front = true) :
    trimEnd text = text := by
  cases text using List.reverseRecOn with
  | nil => rfl
  | append_singleton front c =>
    have hkept : (isBlank c && !endsInEscape front) = false := by
      cases hc : isBlank c with
      | false => rfl
      | true => simp [h front c rfl hc]
    rw [trimEnd_concat, hkept]
    rfl

theorem exists_trimEnd (text : Text) :
    ∃ trailing, text = trimEnd text ++ trailing ∧ (∀ c ∈ trailing, isBlank c = true) ∧
      (trailing ≠ [] → endsInEscape (trimEnd text) = false) := by
  induction text using List.reverseRecOn with
  | nil => exact ⟨[], rfl, by simp, by simp⟩
  | append_singleton front c ih =>
    rw [trimEnd_concat]
    split
    · rename_i htrim
      rw [Bool.and_eq_true, Bool.not_eq_true'] at htrim
      obtain ⟨hc, hescape⟩ := htrim
      obtain ⟨trailing, hfront, hblanks, hstop⟩ := ih
      refine ⟨trailing ++ [c], ?_, ?_, ?_⟩
      · rw [← List.append_assoc, ← hfront]
      · simpa [or_imp, forall_and, hc] using hblanks
      · intro _
        cases trailing with
        | nil => rwa [← List.append_nil (trimEnd front), ← hfront]
        | cons d trailing => exact hstop (by simp)
    · exact ⟨[], by simp, by simp, by simp⟩

/-- Trimming stops at a blank only if something takes it literally. -/
theorem endsInEscape_of_trimEnd_eq_concat {text front : Text} {c : Char}
    (h : trimEnd text = front ++ [c]) (hc : isBlank c = true) : endsInEscape front = true := by
  induction text using List.reverseRecOn with
  | nil => simp at h
  | append_singleton text d ih =>
    rw [trimEnd_concat] at h
    split at h
    · exact ih h
    · rename_i hkept
      obtain ⟨rfl, rfl⟩ := List.append_singleton_inj.1 h
      simpa [hc] using hkept

/-- Of the blanks at the end of a text, one is trimmed unless something takes it literally. -/
theorem trimEnd_isPrefix_iff {front : Text} {c : Char} {after : Text}
    (hblank : ∀ d ∈ c :: after, isBlank d = true) :
    trimEnd (front ++ c :: after) <+: front ↔ endsInEscape front = false := by
  obtain ⟨hc, hafter⟩ := List.forall_mem_cons.1 hblank
  constructor
  · intro hprefix
    by_contra hopen
    rw [Bool.not_eq_false] at hopen
    have hclosed : endsInEscape (front ++ [c]) = false :=
      endsInEscape_concat_of_ne (ne_backslash_of_isBlank hc) front
    have hkept : trimEnd (front ++ c :: after) = front ++ [c] := by
      rw [List.append_cons, trimEnd_append_of_blank hafter fun _ => hclosed, trimEnd_concat, hopen]
      simp
    rw [hkept] at hprefix
    exact absurd hprefix.length_le (by simp)
  · intro hclosed
    rw [trimEnd_append_of_blank hblank fun _ => hclosed]
    obtain ⟨trailing, htrailing, -⟩ := exists_trimEnd front
    exact ⟨trailing, htrailing.symm⟩

theorem isTrimmed_trim (line : Text) : IsTrimmed line (trimEnd (trimStart line)) := by
  obtain ⟨leading, hleading, hleadingBlank⟩ := exists_trimStart line
  obtain ⟨trailing, htrailing, htrailingBlank, hescape⟩ := exists_trimEnd (trimStart line)
  refine ⟨⟨leading, trailing, ?_, hleadingBlank, htrailingBlank, ?_⟩, ?_, ?_⟩
  · rw [← htrailing, ← hleading]
  · intro hne
    exact endsInEscape_eq_false_iff.1 (hescape hne)
  · intro c hc
    have hhead : c ∈ (trimStart line).head? := by
      rw [htrailing, Option.mem_def, List.head?_append, Option.mem_def.1 hc, Option.some_or]
    exact isBlank_of_mem_head?_trimStart hhead
  · intro front c hcore hc
    exact endsInEscape_eq_true_iff.1 (endsInEscape_of_trimEnd_eq_concat hcore hc)

/-- Trimming leaves exactly what is left once the blanks around a line are taken off. -/
theorem isTrimmed_iff {line core : Text} :
    IsTrimmed line core ↔ core = trimEnd (trimStart line) := by
  constructor
  · rintro ⟨⟨leading, trailing, rfl, hleading, htrailing, hescape⟩, hstart, hstop⟩
    have hcore : trimEnd core = core := trimEnd_eq_self fun front c hfront hc =>
      endsInEscape_eq_true_iff.2 (hstop front c hfront hc)
    have hend : trimEnd (core ++ trailing) = core := by
      rw [trimEnd_append_of_blank htrailing fun hne => endsInEscape_eq_false_iff.2 (hescape hne),
        hcore]
    rw [trimStart_append_of_blank hleading]
    cases core with
    | nil =>
      -- Nothing but blanks: they all go as leading ones.
      have hall : trimStart ([] ++ trailing) = [] := by
        simpa using trimStart_append_of_blank htrailing []
      rw [hall, trimEnd_nil]
    | cons c core =>
      rw [List.cons_append, trimStart_cons_of_not_blank (hstart c rfl), ← List.cons_append, hend]
  · rintro rfl
    exact isTrimmed_trim line

/-! ## Lines with the same core -/

theorem IsTrimmed.self {line core : Text} (h : IsTrimmed line core) : IsTrimmed core core :=
  ⟨⟨[], [], by simp, by simp, by simp, by simp⟩, h.start, h.stop⟩

theorem IsTrimmed.subset {line core : Text} (h : IsTrimmed line core) : core ⊆ line := by
  obtain ⟨leading, trailing, rfl, -⟩ := h.split
  exact fun c hc => List.mem_append_right _ (List.mem_append_left _ hc)

/-- More blanks around a line go with its own, unless the first one after it is taken literally. -/
theorem IsTrimmed.between_blanks {line core before after : Text} (h : IsTrimmed line core)
    (hbefore : ∀ c ∈ before, isBlank c = true) (hafter : ∀ c ∈ after, isBlank c = true)
    (hescape : after = [] ∨ ¬EndsInOddRun line) : IsTrimmed (before ++ (line ++ after)) core := by
  obtain ⟨⟨leading, trailing, rfl, hleading, htrailing, hkept⟩, hstart, hstop⟩ := h
  refine ⟨⟨before ++ leading, trailing ++ after, by simp, ?_, ?_, ?_⟩, hstart, hstop⟩
  · simpa [or_imp, forall_and] using ⟨hbefore, hleading⟩
  · simpa [or_imp, forall_and] using ⟨htrailing, hafter⟩
  · intro hne
    cases trailing with
    | nil =>
      -- The core is the end of the line, so the two end in the same run of backslashes.
      have hline := endsInEscape_eq_false_iff.2 (hescape.resolve_left hne)
      rw [List.append_nil, endsInEscape_append_of_blank hleading] at hline
      exact endsInEscape_eq_false_iff.1 hline
    | cons c trailing => exact hkept (by simp)

end PathIgnore.Text
