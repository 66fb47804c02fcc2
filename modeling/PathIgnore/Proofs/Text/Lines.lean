import Mathlib.Data.List.Induction
import PathIgnore.Text

/-!
# Lines

A text is a run of lines, each ended by a newline, and what stands after the last newline. This
module gives the induction over these lines (`lineInduction`) and what cutting a text into lines
does with each of them.
-/

namespace PathIgnore.Text

/-- Line by line: what holds of every text without a newline, and of a line before a text of which
it holds, holds of every text. -/
@[elab_as_elim]
theorem lineInduction {motive : Text → Prop} (last : ∀ text, '\n' ∉ text → motive text)
    (line : ∀ piece rest, '\n' ∉ piece → motive rest → motive (piece ++ '\n' :: rest))
    (text : Text) : motive text := by
  induction hlength : text.length using Nat.strongRecOn generalizing text with
  | ind length ih =>
    by_cases hmem : '\n' ∈ text
    · obtain ⟨piece, rest, rfl, hpiece⟩ := List.eq_append_cons_of_mem hmem
      refine line piece rest hpiece (ih rest.length ?_ rest rfl)
      simp only [List.length_append, List.length_cons] at hlength
      omega
    · exact last text hmem

variable {text piece : Text}

/-! ## Cutting into lines -/

theorem lines_of_not_mem (h : '\n' ∉ text) : lines text = if text = [] then [] else [text] := by
  rw [lines, List.splitOn_eq_singleton h]
  simp [linesOfPieces]

theorem lines_append_newline (h : '\n' ∉ piece) (rest : Text) :
    lines (piece ++ '\n' :: rest) = dropCarriageReturn piece :: lines rest := by
  obtain ⟨next, more, hrest⟩ := List.exists_cons_of_ne_nil (List.splitOn_ne_nil '\n' rest)
  rw [lines, lines, List.splitOn_append_cons_self, List.splitOn_eq_singleton h, hrest]
  rfl

/-- What follows a newline starts a line of its own. -/
theorem lines_append (h : ∀ c ∈ text.getLast?, c = '\n') (more : Text) :
    lines (text ++ more) = lines text ++ lines more := by
  induction text using lineInduction with
  | last text hline =>
    cases hlast : text.getLast? with
    | none =>
      obtain rfl := List.getLast?_eq_none_iff.1 hlast
      rfl
    | some c =>
      obtain rfl := h c hlast
      exact absurd (List.mem_of_getLast? hlast) hline
  | line piece rest hpiece ih =>
    have hrest : ∀ c ∈ rest.getLast?, c = '\n' := by
      intro c hc
      apply h
      rw [List.getLast?_append, List.getLast?_cons, Option.mem_def.1 hc]
      rfl
    rw [List.append_assoc, List.cons_append, lines_append_newline hpiece,
      lines_append_newline hpiece, ih hrest, List.cons_append]

theorem dropCarriageReturn_of_getLast?_ne (h : text.getLast? ≠ some '\r') :
    dropCarriageReturn text = text := by
  rw [dropCarriageReturn, if_neg h]

theorem dropCarriageReturn_cons {c : Char} (h : c ≠ '\r') (line : Text) :
    dropCarriageReturn (c :: line) = c :: dropCarriageReturn line := by
  cases line using List.reverseRecOn with
  | nil => simp [dropCarriageReturn, h]
  | append_singleton front last =>
    rw [← List.cons_append, dropCarriageReturn_concat, dropCarriageReturn_concat]
    split <;> rfl

theorem dropCarriageReturn_isPrefix (line : Text) : dropCarriageReturn line <+: line := by
  unfold dropCarriageReturn
  split
  · exact List.dropLast_prefix line
  · exact List.prefix_rfl

theorem head?_dropCarriageReturn_ne {line : Text} {c : Char} (h : line.head? ≠ some c) :
    (dropCarriageReturn line).head? ≠ some c := by
  intro hhead
  obtain ⟨more, hmore⟩ := dropCarriageReturn_isPrefix line
  apply h
  rw [← hmore, List.head?_append, hhead, Option.some_or]

end PathIgnore.Text
