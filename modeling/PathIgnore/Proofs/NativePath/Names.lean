import PathIgnore.Proofs.TreePath.NormalForm

/-!
# Paths of plain names

A name is plain if it is looked up as it is. A path that is put together from plain names has just
these names between its slashes.
-/

namespace PathIgnore.NativePath

/-- Whether a piece of a path is a name, which is looked up as it is. -/
def IsPlain (piece : List UInt8) : Prop :=
  piece ≠ [] ∧ piece ≠ [dot] ∧ piece ≠ [dot, dot] ∧ slash ∉ piece

/-- The path that leads from the working directory through the given names. -/
def ofNames (names : List (List UInt8)) : NativePath :=
  ofPieces ([dot] :: names)

variable {names : List (List UInt8)}

theorem pieces_ofNames (h : ∀ name ∈ names, IsPlain name) :
    (ofNames names).pieces = [dot] :: names := by
  refine List.splitOn_intercalate slash ?_ (List.cons_ne_nil _ _)
  intro piece hpiece
  rcases List.mem_cons.1 hpiece with rfl | hpiece
  · decide
  · exact (h piece hpiece).2.2.2

theorem bytes_ofNames (names : List (List UInt8)) :
    ∃ rest, (ofNames names).bytes = dot :: rest := by
  cases names with
  | nil => exact ⟨[], rfl⟩
  | cons name rest => exact ⟨_, List.intercalate_cons_cons⟩

theorem isAbsolute_ofNames (names : List (List UInt8)) : (ofNames names).isAbsolute = false := by
  obtain ⟨rest, hbytes⟩ := bytes_ofNames names
  rw [isAbsolute, hbytes]
  rfl

theorem getLast?_ofNames (h : ∀ name ∈ names, IsPlain name) :
    (ofNames names).bytes.getLast? ≠ some slash := by
  -- After a slash at the end, there would be an empty piece.
  intro hlast
  obtain ⟨front, hbytes⟩ := List.getLast?_eq_some_iff.1 hlast
  have hpieces := pieces_ofNames h
  rw [pieces, hbytes, List.splitOn_append_cons_self] at hpieces
  have hempty : [] ∈ [dot] :: names := by simp [← hpieces]
  rcases List.mem_cons.1 hempty with heq | hmem
  · cases heq
  · exact (h [] hmem).1 rfl

theorem isAbsolute_ofPieces (h : ∀ name ∈ names, IsPlain name) :
    (ofPieces names).isAbsolute = false := by
  cases names with
  | nil => rfl
  | cons first rest =>
    obtain ⟨hne, -, -, hslash⟩ := h first List.mem_cons_self
    cases first with
    | nil => exact absurd rfl hne
    | cons byte more =>
      rw [ofPieces, List.intercalate_cons_cons_left, isAbsolute_cons, decide_eq_false_iff_not]
      rintro rfl
      exact hslash List.mem_cons_self

/-- Names are taken from where the path leads. -/
theorem ofNames_join (h : ∀ name ∈ names, IsPlain name) {more : List (List UInt8)}
    (hmore : ∀ name ∈ more, IsPlain name) (hne : more ≠ []) :
    (ofNames names).join (ofPieces more) = ofNames (names ++ more) := by
  obtain ⟨rest, hbytes⟩ := bytes_ofNames names
  have hnonempty : (ofNames names).bytes ≠ [] := by simp [hbytes]
  rw [join, isAbsolute_ofPieces hmore, if_neg (by simpa using hnonempty),
    if_neg (getLast?_ofNames h)]
  exact congrArg mk (intercalate_append (List.cons_ne_nil _ _) hne).symm

end PathIgnore.NativePath
