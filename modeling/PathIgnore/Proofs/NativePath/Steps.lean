import Mathlib.Data.List.Basic
import PathIgnore.NativePath

/-!
# The steps of a native path

Of the pieces between the slashes of a path, the empty ones and `.` lead nowhere; the others are the
steps of the path. Joining two paths puts their steps together (`stepsOf_join`), and a path is seen
from another one if it starts with its components (`isSome_dropComponents_iff`), by the steps that
are left (`dropComponents_eq_some`).
-/

namespace PathIgnore.NativePath

/-- The pieces that lead somewhere. -/
def stepsOf (pieces : List (List UInt8)) : List (List UInt8) :=
  pieces.filter (!isDull ·)

variable {path base name : NativePath} {piece : List UInt8} {pieces rest : List (List UInt8)}

@[simp] theorem stepsOf_nil : stepsOf [] = [] := rfl

@[simp] theorem stepsOf_append (pieces more : List (List UInt8)) :
    stepsOf (pieces ++ more) = stepsOf pieces ++ stepsOf more :=
  List.filter_append pieces more

theorem stepsOf_cons_of_isDull (h : isDull piece = true) (rest : List (List UInt8)) :
    stepsOf (piece :: rest) = stepsOf rest := by
  simp [stepsOf, h]

theorem stepsOf_cons (h : isDull piece = false) (rest : List (List UInt8)) :
    stepsOf (piece :: rest) = piece :: stepsOf rest := by
  simp [stepsOf, h]

/-- `..` is never dull. -/
theorem up_mem_stepsOf_iff : [dot, dot] ∈ stepsOf pieces ↔ [dot, dot] ∈ pieces := by
  have hup : isDull [dot, dot] = false := by decide
  simp [stepsOf, hup]

theorem stepsOf_dropWhile (pieces : List (List UInt8)) :
    stepsOf (pieces.dropWhile isDull) = stepsOf pieces := by
  induction pieces with
  | nil => rfl
  | cons piece rest ih =>
    rw [List.dropWhile_cons]
    split
    · rename_i hdull
      rw [ih, stepsOf_cons_of_isDull hdull]
    · rfl

theorem stepsOf_trimPieces (pieces : List (List UInt8)) :
    stepsOf (trimPieces pieces) = stepsOf pieces := by
  have hreverse : ∀ pieces : List (List UInt8), stepsOf pieces.reverse = (stepsOf pieces).reverse :=
    fun _ => List.filter_reverse
  rw [trimPieces, hreverse, stepsOf_dropWhile, hreverse, List.reverse_reverse]

/-! ## Components -/

theorem componentsOf_eq_map (pieces : List (List UInt8)) :
    componentsOf pieces = (stepsOf pieces).map componentOf := rfl

@[simp] theorem componentOf_up : componentOf [dot, dot] = .up := rfl

theorem componentOf_injective : Function.Injective componentOf := by
  intro piece other h
  unfold componentOf at h
  split at h <;> split at h <;> simp_all

theorem up_mem_components_iff : .up ∈ path.components ↔ [dot, dot] ∈ stepsOf path.pieces := by
  have hup := List.mem_map_of_injective (l := stepsOf path.pieces) (a := [dot, dot])
    componentOf_injective
  rw [componentOf_up, ← componentsOf_eq_map] at hup
  unfold components
  simp only
  split
  · simpa using hup
  split
  · simpa using hup
  · exact hup

/-! ## Where a path starts -/

theorem exists_of_isAbsolute (h : path.isAbsolute = true) : ∃ rest, path.pieces = [] :: rest := by
  obtain ⟨bytes⟩ := path
  cases bytes with
  | nil => cases h
  | cons byte bytes =>
    obtain rfl : byte = slash := by simpa using h
    exact ⟨bytes.splitOn slash, List.splitOn_append_cons_self [] bytes⟩

theorem stepsOf_tail (h : path.isAbsolute = true) :
    stepsOf path.pieces.tail = stepsOf path.pieces := by
  obtain ⟨rest, hpieces⟩ := exists_of_isAbsolute h
  rw [hpieces, List.tail_cons, stepsOf_cons_of_isDull isDull_nil]

theorem components_of_isAbsolute (h : path.isAbsolute = true) :
    path.components = .root :: componentsOf path.pieces.tail := by
  rw [componentsOf_eq_map, stepsOf_tail h]
  simp [components, componentsOf_eq_map, h]

/-! ## Joining -/

theorem isAbsolute_join (hbase : base.isAbsolute = true) : (base.join name).isAbsolute = true := by
  obtain ⟨bytes⟩ := base
  cases bytes with
  | nil => cases hbase
  | cons byte bytes =>
    unfold join
    split
    · rename_i hname
      simpa using hname
    split
    · simpa using hbase
    · simpa using hbase

/-- Joining leads on by the steps of the second path, however the first one ends. -/
theorem stepsOf_join (hbase : base.isAbsolute = true) (hname : name.isAbsolute = false) :
    stepsOf (base.join name).pieces = stepsOf base.pieces ++ stepsOf name.pieces := by
  have hcut : ∀ front : List UInt8, pieces ⟨front ++ slash :: name.bytes⟩ =
      pieces ⟨front⟩ ++ name.pieces :=
    fun front => List.splitOn_append_cons_self front name.bytes
  have hbytes : base.bytes ≠ [] := by
    intro hnil
    simp [isAbsolute, hnil] at hbase
  rw [join, hname, Bool.false_or, if_neg (by simpa using hbytes)]
  split
  · rename_i hlast
    obtain ⟨front, hfront⟩ := List.getLast?_eq_some_iff.1 hlast
    have hbase : base.pieces = pieces ⟨front⟩ ++ [[]] := by
      rw [pieces, hfront]
      exact List.splitOn_append_cons_self front []
    rw [hfront, List.append_assoc, List.singleton_append, hcut, hbase, stepsOf_append,
      stepsOf_append, stepsOf_cons_of_isDull isDull_nil, stepsOf_nil, List.append_nil]
  · rw [hcut, stepsOf_append]

/-! ## Seen from another path -/

theorem componentsOf_of_dropWhile (h : pieces.dropWhile isDull = piece :: rest) :
    componentsOf pieces = componentOf piece :: componentsOf rest := by
  have hdull : isDull piece = false := by
    have hhead := List.head?_dropWhile_not isDull pieces
    simpa [h] using hhead
  rw [componentsOf_eq_map, ← stepsOf_dropWhile, h, stepsOf_cons hdull]
  rfl

theorem componentsOf_of_dropWhile_nil (h : pieces.dropWhile isDull = []) :
    componentsOf pieces = [] := by
  rw [componentsOf_eq_map, ← stepsOf_dropWhile, h]
  rfl

/-- Dropping components leaves the last pieces, which make the components that are left. -/
theorem dropComponents_eq_some {components : List Component}
    (h : dropComponents components pieces = some rest) :
    componentsOf pieces = components ++ componentsOf rest ∧ rest <:+ pieces := by
  induction components generalizing pieces with
  | nil =>
    cases h
    exact ⟨rfl, List.suffix_refl _⟩
  | cons component components ih =>
    unfold dropComponents at h
    split at h
    · cases h
    rename_i piece more hpieces
    split at h
    · rename_i hcomponent
      obtain ⟨hmade, hsuffix⟩ := ih h
      refine ⟨?_, ?_⟩
      · rw [componentsOf_of_dropWhile hpieces, hmade, hcomponent, List.cons_append]
      · have hmore : more <:+ pieces :=
          (List.suffix_cons piece more).trans (hpieces ▸ List.dropWhile_suffix isDull)
        exact hsuffix.trans hmore
    · cases h

/-- Components can be dropped from the pieces of a path if the path starts with them. -/
theorem isSome_dropComponents_iff {components : List Component} :
    (dropComponents components pieces).isSome = true ↔ components <+: componentsOf pieces := by
  constructor
  · intro h
    obtain ⟨rest, hrest⟩ := Option.isSome_iff_exists.1 h
    exact ⟨componentsOf rest, (dropComponents_eq_some hrest).1.symm⟩
  · induction components generalizing pieces with
    | nil => exact fun _ => rfl
    | cons component components ih =>
      intro h
      unfold dropComponents
      split
      · rename_i hnil
        rw [componentsOf_of_dropWhile_nil hnil] at h
        simp at h
      · rename_i piece more hpieces
        rw [componentsOf_of_dropWhile hpieces, List.cons_prefix_cons] at h
        obtain ⟨rfl, hmore⟩ := h
        rw [if_pos rfl]
        exact ih hmore

theorem pieces_ofPieces (hne : pieces ≠ []) (h : ∀ piece ∈ pieces, slash ∉ piece) :
    (ofPieces pieces).pieces = pieces :=
  List.splitOn_intercalate slash h hne

theorem trimPieces_isPrefix (pieces : List (List UInt8)) : trimPieces pieces <+: pieces := by
  have hsuffix := List.dropWhile_suffix (l := pieces.reverse) isDull
  rw [trimPieces, ← List.reverse_suffix, List.reverse_reverse]
  exact hsuffix

/-- Trimming leaves the steps as they are, and no piece at the start that would make the path
absolute. -/
theorem isRelative_ofPiecesTrimmed (h : ∀ piece ∈ pieces, slash ∉ piece) :
    (ofPiecesTrimmed pieces).isAbsolute = false ∧
      stepsOf (ofPiecesTrimmed pieces).pieces = stepsOf pieces := by
  have hsteps : stepsOf (trimPieces (pieces.dropWhile isDull)) = stepsOf pieces := by
    rw [stepsOf_trimPieces, stepsOf_dropWhile]
  have hfront := trimPieces_isPrefix (pieces.dropWhile isDull)
  have hmem : ∀ piece ∈ trimPieces (pieces.dropWhile isDull), slash ∉ piece := fun piece hpiece =>
    h piece ((List.dropWhile_suffix isDull).subset (hfront.subset hpiece))
  unfold ofPiecesTrimmed
  cases htrimmed : trimPieces (pieces.dropWhile isDull) with
  | nil =>
    rw [htrimmed] at hsteps
    exact ⟨rfl, hsteps⟩
  | cons first more =>
    rw [htrimmed] at hsteps hfront hmem
    have hpieces := pieces_ofPieces (List.cons_ne_nil first more) hmem
    refine ⟨?_, by rw [hpieces, hsteps]⟩
    rw [← Bool.not_eq_true]
    intro habsolute
    -- An absolute path has an empty first piece, and dull pieces have been dropped.
    obtain ⟨tail, htail⟩ := exists_of_isAbsolute habsolute
    rw [hpieces] at htail
    obtain ⟨rfl, -⟩ := List.cons.inj htail
    obtain ⟨after, hafter⟩ := hfront
    have hhead := List.head?_dropWhile_not isDull pieces
    rw [← hafter] at hhead
    cases hhead

end PathIgnore.NativePath
