import Mathlib.Logic.Function.Iterate
import PathIgnore.Proofs.TreePath.Ancestors
import PathIgnore.Proofs.TreePath.Reachable

/-!
# The way up

From every path, in normal form or not, going from parent to parent comes to the root, as a parent
has a shorter text than what it holds; this gives an induction over all paths (`parentInduction`).
Main statement: a lineage is this way up, and what comes after each of its directories in the text
of the path is what is seen from there (`lineage_leads_up_to_root`).
-/

namespace PathIgnore.TreePath

/-- From parent to parent: what holds of the root, and of each path whose parent it holds of, holds
of every path. -/
@[elab_as_elim]
theorem parentInduction {motive : TreePath → Prop} (top : motive root)
    (below : ∀ path parent, path.parent? = some parent → motive parent → motive path)
    (path : TreePath) : motive path := by
  induction hlength : path.text.length using Nat.strongRecOn generalizing path with
  | ind length ih =>
    rcases eq_or_ne path root with rfl | hroot
    · exact top
    · obtain ⟨parent, hparent⟩ := exists_parent? hroot
      have hlt := length_text_lt_of_parent? hparent
      exact below path parent hparent (ih parent.text.length (hlength ▸ hlt) parent rfl)

variable {path directory : TreePath}

/-! ## The directories on the way -/

theorem head?_selfAndAncestors (path : TreePath) : path.selfAndAncestors.head? = some path := by
  cases hparent : path.parent? with
  | none => rw [selfAndAncestors_of_parent?_eq_none hparent, List.head?_cons]
  | some parent => rw [selfAndAncestors_of_parent?_eq_some hparent, List.head?_cons]

/-- The directory in place `i` is reached by going `i` times to the parent. Where there is none, the
way has ended. -/
theorem getElem?_selfAndAncestors (path : TreePath) (i : Nat) :
    path.selfAndAncestors[i]? = (·.bind parent?)^[i] (some path) := by
  induction i generalizing path with
  | zero => rw [← List.head?_eq_getElem?, head?_selfAndAncestors, Function.iterate_zero_apply]
  | succ i ih =>
    rw [Function.iterate_succ_apply, Option.bind_some]
    cases hparent : path.parent? with
    | none =>
      rw [selfAndAncestors_of_parent?_eq_none hparent, Function.iterate_fixed rfl]
      rfl
    | some parent =>
      rw [selfAndAncestors_of_parent?_eq_some hparent, List.getElem?_cons_succ, ih]

theorem getLast?_selfAndAncestors (path : TreePath) :
    path.selfAndAncestors.getLast? = some root := by
  induction path using parentInduction with
  | top => rfl
  | below path parent hparent ih =>
    rw [selfAndAncestors_of_parent?_eq_some hparent, List.getLast?_cons, ih, Option.getD_some]

theorem length_text_le_of_mem (hmem : directory ∈ path.selfAndAncestors) :
    directory.text.length ≤ path.text.length := by
  induction path using parentInduction with
  | top =>
    obtain rfl : directory = root := by simpa using hmem
    exact Nat.le_refl _
  | below path parent hparent ih =>
    rw [selfAndAncestors_of_parent?_eq_some hparent, List.mem_cons] at hmem
    rcases hmem with rfl | hmem
    · exact Nat.le_refl _
    · exact Nat.le_of_lt (Nat.lt_of_le_of_lt (ih hmem) (length_text_lt_of_parent? hparent))

/-- A path is not on the way up from its parent. -/
theorem ne_of_mem_of_parent? {parent : TreePath} (hparent : path.parent? = some parent)
    (hmem : directory ∈ parent.selfAndAncestors) : directory ≠ path := by
  rintro rfl
  exact Nat.not_lt.2 (length_text_le_of_mem hmem) (length_text_lt_of_parent? hparent)

/-- What comes later on the way is on the way from what comes before it, and is shorter. -/
theorem pairwise_selfAndAncestors (path : TreePath) :
    path.selfAndAncestors.Pairwise fun nearer farther =>
      farther ∈ nearer.selfAndAncestors ∧ farther.text.length < nearer.text.length := by
  induction path using parentInduction with
  | top => exact List.pairwise_singleton _ root
  | below path parent hparent ih =>
    rw [selfAndAncestors_of_parent?_eq_some hparent, List.pairwise_cons]
    refine ⟨fun farther hfarther => ⟨?_, ?_⟩, ih⟩
    · rw [selfAndAncestors_of_parent?_eq_some hparent]
      exact List.mem_cons_of_mem path hfarther
    · exact Nat.lt_of_le_of_lt (length_text_le_of_mem hfarther) (length_text_lt_of_parent? hparent)

theorem nearestDirectory_eq_or (path : TreePath) (isDirectory : Bool) :
    path.nearestDirectory isDirectory = path ∨
      path.parent? = some (path.nearestDirectory isDirectory) := by
  cases isDirectory with
  | true => exact .inl rfl
  | false =>
    rcases eq_or_ne path root with rfl | hroot
    · exact .inl rfl
    · obtain ⟨parent, hparent⟩ := exists_parent? hroot
      exact .inr (by simp [nearestDirectory, hparent])

theorem mem_selfAndAncestors_of_mem_nearest {isDirectory : Bool}
    (hmem : directory ∈ (path.nearestDirectory isDirectory).selfAndAncestors) :
    directory ∈ path.selfAndAncestors := by
  rcases path.nearestDirectory_eq_or isDirectory with hself | hparent
  · rwa [hself] at hmem
  · rw [selfAndAncestors_of_parent?_eq_some hparent]
    exact List.mem_cons_of_mem path hmem

/-! ## What is seen from them -/

theorem line_of_parent? {parent : TreePath} (hparent : path.parent? = some parent) :
    parent = root ∨ path.line = path.last :: parent.line := by
  obtain ⟨last, above⟩ := path
  cases above with
  | nil =>
    cases last with
    | nil => cases hparent
    | cons => exact .inl (Option.some.inj hparent).symm
  | cons next above =>
    cases hparent
    exact .inr rfl

/-- The pieces of a directory on the way are those at the end of the path's line. -/
theorem exists_line_eq_append (hmem : directory ∈ path.selfAndAncestors)
    (hroot : directory ≠ root) : ∃ pieces, path.line = pieces ++ directory.line := by
  induction path using parentInduction with
  | top => exact absurd (by simpa using hmem) hroot
  | below path parent hparent ih =>
    rw [selfAndAncestors_of_parent?_eq_some hparent, List.mem_cons] at hmem
    rcases hmem with rfl | hmem
    · exact ⟨[], rfl⟩
    · obtain ⟨pieces, hpieces⟩ := ih hmem
      rcases line_of_parent? hparent with rfl | hline
      · exact absurd (by simpa using hmem) hroot
      · exact ⟨path.last :: pieces, by rw [hline, hpieces, List.cons_append]⟩

theorem textOfLine_append {pieces line : List Text} (hpieces : pieces ≠ []) (hline : line ≠ []) :
    textOfLine (pieces ++ line) = textOfLine line ++ '/' :: textOfLine pieces := by
  have hjoined := intercalate_append (a := '/') (List.reverse_ne_nil_iff.2 hline)
    (List.reverse_ne_nil_iff.2 hpieces)
  rwa [← List.reverse_append, ← textOfLine_reverse, ← textOfLine_reverse, ← textOfLine_reverse,
    List.reverse_reverse, List.reverse_reverse, List.reverse_reverse] at hjoined

/-- Nothing is seen of a path from itself. -/
theorem relativeTo?_self (path : TreePath) : path.relativeTo? path = some [] := by
  rcases eq_or_ne path root with rfl | hroot
  · rfl
  · exact relativeTo?_of_line_eq (List.nil_append path.line).symm (isRoot_eq_false hroot)

/-- From every directory on the way, what comes after it in the text of the path is seen. -/
theorem exists_relativeTo?_eq_some (hmem : directory ∈ path.selfAndAncestors) :
    ∃ view, path.relativeTo? directory = some view ∧
      (directory = root ∧ view = path.text ∨ directory = path ∧ view = [] ∨
        path.text = directory.text ++ '/' :: view) := by
  rcases eq_or_ne directory root with rfl | hroot
  · exact ⟨path.text, rfl, .inl ⟨rfl, rfl⟩⟩
  obtain ⟨pieces, hpieces⟩ := exists_line_eq_append hmem hroot
  refine ⟨_, relativeTo?_of_line_eq hpieces (isRoot_eq_false hroot), .inr ?_⟩
  rcases eq_or_ne pieces [] with rfl | hne
  · have hself : directory = path := congrArg ofLine hpieces.symm
    exact .inl ⟨hself, rfl⟩
  · refine .inr ?_
    have hline : directory.line ≠ [] := List.cons_ne_nil _ _
    rw [text, hpieces, textOfLine_append hne hline, text]

/-! ## Metadata directories -/

/-- What a metadata directory is on the way of lies in it. -/
theorem isMetadata_of_mem {metadataName : Text} (hmem : directory ∈ path.selfAndAncestors)
    (hmetadata : directory.isMetadata metadataName = true) :
    path.isMetadata metadataName = true := by
  rw [isMetadata, Bool.and_eq_true, List.contains_iff_mem] at hmetadata ⊢
  obtain ⟨hname, hline⟩ := hmetadata
  refine ⟨hname, ?_⟩
  rcases eq_or_ne directory root with rfl | hroot
  · obtain rfl : metadataName = [] := by simpa [line, root] using hline
    cases hname
  · obtain ⟨pieces, hpieces⟩ := exists_line_eq_append hmem hroot
    rw [hpieces]
    exact List.mem_append_right pieces hline

theorem isMetadata_root (metadataName : Text) : root.isMetadata metadataName = false := by
  rw [isMetadata_eq]
  rfl

/-- Where a property is inherited by what comes before, nothing after the first without it has
it. -/
theorem eq_false_of_mem_dropWhile {α : Type} {p : α → Bool} {l : List α}
    (h : l.Pairwise fun a b => p b = true → p a = true) : ∀ a ∈ l.dropWhile p, p a = false := by
  induction l with
  | nil => simp
  | cons first rest ih =>
    obtain ⟨hfirst, hrest⟩ := List.pairwise_cons.1 h
    rw [List.dropWhile_cons]
    split
    · exact ih hrest
    · rename_i hnot
      intro a ha
      rw [Bool.eq_false_iff]
      intro hpa
      rcases List.mem_cons.1 ha with rfl | ha
      · exact hnot hpa
      · exact hnot (hfirst a ha hpa)

/-! ## Lineages -/

theorem map_path_lineage (path : TreePath) (isDirectory : Bool) (metadataName : Text) :
    (path.lineage isDirectory metadataName).map Ancestor.path =
      (path.nearestDirectory isDirectory).selfAndAncestors := by
  rw [lineage_eq_map, List.map_map]
  exact List.map_id _

/-- Along a lineage, the texts get shorter and shorter. -/
theorem pairwise_length_lineage (path : TreePath) (isDirectory : Bool) (metadataName : Text) :
    (path.lineage isDirectory metadataName).Pairwise fun nearer farther =>
      farther.path.text.length < nearer.path.text.length := by
  rw [lineage_eq_map, List.pairwise_map]
  exact (pairwise_selfAndAncestors _).imp And.right

/-- No directory stands twice in a lineage. -/
theorem nodup_lineage (path : TreePath) (isDirectory : Bool) (metadataName : Text) :
    ((path.lineage isDirectory metadataName).map Ancestor.path).Nodup := by
  rw [List.Nodup, List.pairwise_map]
  refine (path.pairwise_length_lineage isDirectory metadataName).imp fun hlt heq => ?_
  rw [heq] at hlt
  exact Nat.lt_irrefl _ hlt

/-- The metadata directories are the first ones of a lineage. -/
theorem eq_false_of_mem_dropWhile_metadata {isDirectory : Bool} {metadataName : Text} :
    ∀ ancestor ∈ (path.lineage isDirectory metadataName).dropWhile Ancestor.metadata,
      ancestor.metadata = false := by
  apply eq_false_of_mem_dropWhile
  rw [lineage_eq_map, List.pairwise_map]
  exact (pairwise_selfAndAncestors _).imp fun hfarther => isMetadata_of_mem hfarther.1

/-- What an ancestor says is seen from it is seen from it. -/
theorem relativeTo?_of_mem_lineage {isDirectory : Bool} {metadataName : Text} {ancestor : Ancestor}
    (hmem : ancestor ∈ path.lineage isDirectory metadataName) :
    path.relativeTo? ancestor.path = some ancestor.view ∧
      (ancestor.path = root ∧ ancestor.view = path.text ∨
        ancestor.path = path ∧ ancestor.view = [] ∨
        path.text = ancestor.path.text ++ '/' :: ancestor.view) := by
  rw [lineage_eq_map] at hmem
  obtain ⟨directory, hdirectory, rfl⟩ := List.mem_map.1 hmem
  obtain ⟨view, hview, htext⟩ :=
    exists_relativeTo?_eq_some (mem_selfAndAncestors_of_mem_nearest hdirectory)
  simp only [hview, Option.getD_some]
  exact ⟨trivial, htext⟩

/-- The lineage of a path in normal form lists the prefixes of its names, from the longest one that
counts to the empty one, each flagged if it holds the metadata name. The lineage of any path goes
from its nearest directory from parent to parent; it ends in the root, its texts get shorter, the
flagged directories come first, and what is seen of the path from a directory is defined, as what
comes after the directory in the path's text. -/
theorem lineage_leads_up_to_root (isDirectory : Bool) (metadataName : Text) :
    (∀ path : TreePath, path.IsNormal →
      let names := path.components
      let longest := if isDirectory then names.length else names.length - 1
      path.lineage isDirectory metadataName =
        (List.range (longest + 1)).reverse.map fun k =>
          ⟨ofComponents (names.take k), decide (metadataName ∈ names.take k),
            ['/'].intercalate (names.drop k)⟩) ∧
    ∀ path : TreePath,
      let lineage := path.lineage isDirectory metadataName
      (∀ i, (lineage.map Ancestor.path)[i]? =
        (·.bind parent?)^[i] (some (path.nearestDirectory isDirectory))) ∧
      (lineage ≠ [] ∧ (lineage.map Ancestor.path).getLast? = some root ∧
        lineage.Pairwise fun nearer farther =>
          farther.path.text.length < nearer.path.text.length) ∧
      ((∀ ancestor ∈ lineage.dropWhile Ancestor.metadata, ancestor.metadata = false) ∧
        ∀ ancestor ∈ lineage, ancestor.path = root → ancestor.metadata = false) ∧
      ∀ ancestor ∈ lineage, path.relativeTo? ancestor.path = some ancestor.view ∧
        (ancestor.path = root ∧ ancestor.view = path.text ∨
          ancestor.path = path ∧ ancestor.view = [] ∨
          path.text = ancestor.path.text ++ '/' :: ancestor.view) := by
  constructor
  · intro path hpath names longest
    have hlongest : (path.directoryNames isDirectory).length = longest := by
      unfold directoryNames
      cases isDirectory with
      | true => rfl
      | false => exact List.length_dropLast
    rw [hpath.lineage_eq, hlongest]
    refine List.map_congr_left fun k _ => ?_
    rw [ancestor, ancestorAt, viewFrom, List.contains_eq_mem]
  · intro path lineage
    have hdirectories : lineage.map Ancestor.path =
        (path.nearestDirectory isDirectory).selfAndAncestors := path.map_path_lineage _ _
    have hlast : (lineage.map Ancestor.path).getLast? = some root := by
      rw [hdirectories, getLast?_selfAndAncestors]
    refine ⟨fun i => ?_, ⟨?_, hlast, path.pairwise_length_lineage isDirectory metadataName⟩,
      ⟨eq_false_of_mem_dropWhile_metadata, fun ancestor hmem hroot => ?_⟩,
      fun ancestor hmem => relativeTo?_of_mem_lineage hmem⟩
    · rw [hdirectories, getElem?_selfAndAncestors]
    · intro hnil
      rw [hnil] at hlast
      cases hlast
    · simp only [lineage, lineage_eq_map] at hmem
      obtain ⟨directory, -, rfl⟩ := List.mem_map.1 hmem
      obtain rfl : directory = root := hroot
      exact isMetadata_root metadataName

/-- The way up from a file in a metadata directory, and that from a path with slashes too many. -/
theorem lineage_leads_up_to_root_metadata :
    let path := ofComponents [".git".toList, ['a'], ['b']]
    let untidy := (ofComponents [['a']]).join "/b/".toList
    path.IsNormal ∧
      path.lineage false ".git".toList =
        [⟨ofComponents [".git".toList, ['a']], true, ['b']⟩,
          ⟨ofComponents [".git".toList], true, "a/b".toList⟩, ⟨root, false, ".git/a/b".toList⟩] ∧
      untidy.text = "a//b/".toList ∧ ¬untidy.IsNormal ∧
      ∀ ancestor ∈ untidy.lineage true ".git".toList,
        untidy.relativeTo? ancestor.path = some ancestor.view := by
  intro path untidy
  have hpath : path.IsNormal := by decide
  have hlineage := (lineage_leads_up_to_root false ".git".toList).1 path hpath
  obtain ⟨-, -, -, hviews⟩ := (lineage_leads_up_to_root true ".git".toList).2 untidy
  exact ⟨hpath, hlineage.trans (by decide), by decide, by decide,
    fun ancestor hmem => (hviews ancestor hmem).1⟩

end PathIgnore.TreePath
