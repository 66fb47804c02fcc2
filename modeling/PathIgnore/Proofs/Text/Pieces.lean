import PathIgnore.Text

/-!
# Pieces between separators

A list that is cut at an element gives pieces without that element, and the pieces joined by it give
the list back. Here is what else is known of the pieces, and of a list that is joined from pieces.
-/

namespace PathIgnore

variable {α : Type} {a : α}

/-! ## Cutting -/

section Cutting

variable [BEq α] [LawfulBEq α]

theorem not_mem_of_mem_splitOn {xs piece : List α} (h : piece ∈ xs.splitOn a) : a ∉ piece := by
  induction xs generalizing piece with
  | nil =>
    obtain rfl : piece = [] := by simpa using h
    simp
  | cons x rest ih =>
    rw [List.splitOn_cons_eq_if_modifyHead] at h
    split at h
    · rcases List.mem_cons.1 h with rfl | h
      · simp
      · exact ih h
    · rename_i hx
      cases hpieces : rest.splitOn a with
      | nil => exact absurd hpieces (List.splitOn_ne_nil _ _)
      | cons first more =>
        rw [hpieces, List.modifyHead_cons] at h
        rcases List.mem_cons.1 h with rfl | h
        · intro hmem
          rcases List.mem_cons.1 hmem with rfl | hmem
          · exact hx (beq_self_eq_true _)
          · exact ih (by simp [hpieces]) hmem
        · exact ih (by simp [hpieces, h])

/-- The first piece is empty if nothing is cut, or if the cut is at the very start. -/
theorem head?_splitOn_eq_nil_iff {xs : List α} :
    (xs.splitOn a).head? = some [] ↔ xs = [] ∨ xs.head? = some a := by
  cases xs with
  | nil => simp
  | cons x rest =>
    rw [List.splitOn_cons_eq_if_modifyHead]
    by_cases hx : x = a
    · simp [hx]
    · cases hpieces : rest.splitOn a with
      | nil => exact absurd hpieces (List.splitOn_ne_nil _ _)
      | cons piece more => simp [hx]

/-- There is one piece more than there are cuts. -/
theorem length_splitOn (xs : List α) : (xs.splitOn a).length = xs.count a + 1 := by
  induction xs with
  | nil => simp
  | cons x rest ih =>
    rw [List.splitOn_cons_eq_if_modifyHead]
    by_cases hx : x = a
    · simp [hx, ih]
    · simp [hx, ih]

end Cutting

/-! ## Joining -/

theorem intercalate_append {pieces more : List (List α)} (hpieces : pieces ≠ [])
    (hmore : more ≠ []) :
    [a].intercalate (pieces ++ more) = [a].intercalate pieces ++ a :: [a].intercalate more := by
  induction pieces with
  | nil => exact absurd rfl hpieces
  | cons piece rest ih =>
    cases rest with
    | nil =>
      rw [List.singleton_append, List.intercalate_cons_of_ne_nil hmore]
      simp
    | cons next rest =>
      rw [List.cons_append, List.cons_append, List.intercalate_cons_cons, ← List.cons_append,
        ih (List.cons_ne_nil next rest), List.intercalate_cons_cons]
      simp

theorem intercalate_ne_nil_of_mem {pieces : List (List α)} {piece : List α} (hmem : piece ∈ pieces)
    (hne : piece ≠ []) : [a].intercalate pieces ≠ [] := by
  cases pieces with
  | nil => cases hmem
  | cons first rest =>
    cases rest with
    | nil =>
      obtain rfl := List.mem_singleton.1 hmem
      simpa using hne
    | cons next rest => simp [List.intercalate_cons_cons]

/-- A piece that was itself joined from pieces may be joined with the others at once. -/
theorem intercalate_append_intercalate (before : List (List α)) {pieces : List (List α)}
    (hpieces : pieces ≠ []) (after : List (List α)) :
    [a].intercalate (before ++ [a].intercalate pieces :: after) =
      [a].intercalate (before ++ (pieces ++ after)) := by
  have hafter : [a].intercalate ([a].intercalate pieces :: after) =
      [a].intercalate (pieces ++ after) := by
    cases after with
    | nil => simp
    | cons next rest =>
      rw [List.intercalate_cons_cons, intercalate_append hpieces (List.cons_ne_nil next rest)]
      simp
  cases before with
  | nil => exact hafter
  | cons first rest =>
    rw [intercalate_append (List.cons_ne_nil first rest) (List.cons_ne_nil _ after),
      intercalate_append (List.cons_ne_nil first rest) (by simp [hpieces]), hafter]

theorem mem_intercalate_iff {b : α} {pieces : List (List α)} (hne : b ≠ a) :
    b ∈ [a].intercalate pieces ↔ ∃ piece ∈ pieces, b ∈ piece := by
  induction pieces with
  | nil => simp
  | cons piece rest ih =>
    cases rest with
    | nil => simp
    | cons next rest => rw [List.intercalate_cons_cons]; simp [ih, hne]

end PathIgnore
