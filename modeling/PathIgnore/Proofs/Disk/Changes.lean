import Mathlib.Data.List.Basic
import PathIgnore.Proofs.Disk.Paths

/-!
# Disks after changes

Whatever is put on a disk stands under names that were followed one by one, which are among the
pieces of the path of the change (`names_foldlM`). The path was short enough, so the entry can be
found under its names (`canBeFound_of_locateParent`), and every change keeps a disk sound
(`IsSound.apply`).
-/

namespace PathIgnore.Disk

open NativePath (ofNames ofPieces)

/-! ## Names that can be found -/

/-- How many bytes pieces take when each has a slash after it. -/
def room : List (List UInt8) → Nat
  | [] => 0
  | piece :: rest => piece.length + 1 + room rest

theorem length_bytes_ofPieces {pieces : List (List UInt8)} (hne : pieces ≠ []) :
    (ofPieces pieces).bytes.length + 1 = room pieces := by
  simp only [ofPieces]
  induction pieces with
  | nil => exact absurd rfl hne
  | cons piece rest ih =>
    cases rest with
    | nil => simp [room]
    | cons next rest =>
      rw [List.intercalate_cons_cons, room, ← ih (List.cons_ne_nil next rest)]
      simp only [List.length_append, List.length_singleton]
      omega

theorem room_le_of_sublist {pieces fewer : List (List UInt8)} (h : fewer.Sublist pieces) :
    room fewer ≤ room pieces := by
  induction h with
  | slnil => exact Nat.le_refl 0
  | cons piece _ ih => exact Nat.le_trans ih (Nat.le_add_left _ _)
  | cons_cons piece _ ih => exact Nat.add_le_add_left ih _

theorem checkPath_eq_ok_iff {path : NativePath} :
    checkPath path = .ok () ↔ 0 ∉ path.bytes ∧ path.bytes ≠ [] ∧ path.bytes.length ≤ maxPath := by
  unfold checkPath
  split_ifs with hnul hempty hlong
  · exact ⟨nofun, fun h => absurd (List.contains_iff_mem.1 hnul) h.1⟩
  · exact ⟨nofun, fun h => absurd hempty h.2.1⟩
  · exact ⟨nofun, fun h => absurd hlong (Nat.not_lt.2 h.2.2)⟩
  · refine ⟨fun _ => ⟨fun hmem => hnul (List.contains_iff_mem.2 hmem), hempty, ?_⟩, fun _ => rfl⟩
    exact Nat.not_lt.1 hlong

/-- The names that can be found: no NUL byte, and nothing too long. -/
theorem canBeFound_iff {names : List (List UInt8)} :
    CanBeFound names ↔ (∀ name ∈ names, 0 ∉ name ∧ name.length ≤ maxName) ∧
      room names < maxPath := by
  have hnul : 0 ∈ (ofNames names).bytes ↔ ∃ name ∈ names, 0 ∈ name := by
    rw [ofNames, ofPieces, mem_intercalate_iff (by decide)]
    simp [NativePath.dot]
  have hlength : (ofNames names).bytes.length + 1 = 2 + room names :=
    length_bytes_ofPieces (List.cons_ne_nil _ _)
  have hne : (ofNames names).bytes ≠ [] := by
    obtain ⟨rest, hbytes⟩ := NativePath.bytes_ofNames names
    simp [hbytes]
  rw [CanBeFound, checkPath_eq_ok_iff, hnul]
  constructor
  · rintro ⟨⟨hfree, -, hle⟩, hshort⟩
    exact ⟨fun name hmem => ⟨fun h => hfree ⟨name, hmem, h⟩, hshort name hmem⟩, by omega⟩
  · rintro ⟨hnames, hlt⟩
    refine ⟨⟨?_, hne, by omega⟩, fun name hmem => (hnames name hmem).2⟩
    rintro ⟨name, hmem, h⟩
    exact (hnames name hmem).1 h

theorem CanBeFound.of_sublist {names fewer : List (List UInt8)} (h : CanBeFound names)
    (hfewer : fewer.Sublist names) : CanBeFound fewer := by
  rw [canBeFound_iff] at h ⊢
  obtain ⟨hnames, hlength⟩ := h
  exact ⟨fun name hmem => hnames name (hfewer.subset hmem),
    Nat.lt_of_le_of_lt (room_le_of_sublist hfewer) hlength⟩

/-- Putting an entry that holds nothing where it can be found. -/
theorem IsSound.put {disk : Disk} (hdisk : disk.IsSound) {names : List (List UInt8)} {entry : Entry}
    (hnames : CanBeFound names) (hentry : entry.entries = []) : (disk.put names entry).IsSound := by
  intro other hother
  rcases isPrefix_or_isSome_of_get?_put hentry hother with hprefix | hbefore
  · exact hnames.of_sublist hprefix.sublist
  · exact hdisk other hbefore

/-! ## Names that were followed -/

/-- The names that lead to a place from the working directory. -/
def Place.names : Place → List (List UInt8)
  | .inside trail => (trail.map Prod.fst).reverse
  | .outside => []

/-- The step: following a piece of a path adds at most its name, which is not too long, and nothing
leads back from outside of the working directory. -/
theorem names_follow {disk : Disk} {place next : Place} {piece : List UInt8}
    (h : disk.follow place piece = .ok next) :
    next.names.Sublist (place.names ++ [piece]) ∧
      (∀ name ∈ next.names, name ∈ place.names ∨ name.length ≤ maxName) ∧
      (place = .outside → next = .outside) := by
  unfold follow at h
  split at h
  · cases h
  split at h
  · cases h
    exact ⟨List.sublist_append_left _ _, fun _ => .inl, id⟩
  split at h
  · cases place with
    | outside =>
      cases h
      exact ⟨List.nil_sublist _, fun _ => .inl, id⟩
    | inside trail =>
      cases trail with
      | nil =>
        cases h
        exact ⟨List.nil_sublist _, fun _ => .inl, fun _ => rfl⟩
      | cons last above =>
        cases h
        simp only [Place.names, List.map_cons, List.reverse_cons]
        refine ⟨?_, fun name hmem => .inl (List.mem_append_left _ hmem), nofun⟩
        rw [List.append_assoc]
        exact List.sublist_append_left _ _
  · obtain ⟨trail, inner, rfl, hshort, -, rfl⟩ := find_eq_ok_iff.1 h
    simp only [Place.names, List.map_cons, List.reverse_cons, List.mem_append, List.mem_singleton]
    refine ⟨List.Sublist.refl _, ?_, nofun⟩
    rintro name (hmem | rfl)
    · exact .inl hmem
    · exact .inr hshort

/-- The run: the names of the place that pieces lead to are among the pieces. -/
theorem names_foldlM {disk : Disk} {place next : Place} {pieces : List (List UInt8)}
    (h : pieces.foldlM disk.follow place = .ok next) :
    next.names.Sublist (place.names ++ pieces) ∧
      (∀ name ∈ next.names, name ∈ place.names ∨ name.length ≤ maxName) ∧
      (place = .outside → next = .outside) := by
  induction pieces generalizing place with
  | nil =>
    cases h
    exact ⟨List.sublist_append_left _ _, fun _ => .inl, id⟩
  | cons piece rest ih =>
    rw [List.foldlM_cons, bind_eq_ok_iff] at h
    obtain ⟨between, hfirst, hrest⟩ := h
    obtain ⟨hsub, hshort, houtside⟩ := names_follow hfirst
    obtain ⟨hsubRest, hshortRest, houtsideRest⟩ := ih hrest
    refine ⟨?_, ?_, fun heq => houtsideRest (houtside heq)⟩
    · have hboth := hsubRest.trans (hsub.append_right rest)
      rwa [List.append_assoc] at hboth
    · intro name hmem
      rcases hshortRest name hmem with hmem | hle
      · exact hshort name hmem
      · exact .inr hle

/-- Pieces of a path that has been accepted in full can be found, if they are short enough. -/
theorem canBeFound_of_sublist_pieces {path : NativePath} (hcheck : checkFullPath path = .ok ())
    (hrelative : path.isAbsolute = false) {names : List (List UInt8)}
    (hsub : names.Sublist path.pieces) (hshort : ∀ name ∈ names, name.length ≤ maxName) :
    CanBeFound names := by
  obtain ⟨⟨⟩, hpath, hfull⟩ := bind_eq_ok_iff.1 hcheck
  have hlength : homeLength + path.bytes.length ≤ maxPath := by
    rw [hrelative] at hfull
    split at hfull
    · cases hfull
    · rename_i hshort
      simpa using hshort
  have hbytes : path.bytes = [NativePath.slash].intercalate path.pieces :=
    (List.intercalate_splitOn NativePath.slash).symm
  have hroom : path.bytes.length + 1 = room path.pieces := by
    conv_lhs => rw [hbytes]
    exact length_bytes_ofPieces (List.splitOn_ne_nil NativePath.slash path.bytes)
  have hle := room_le_of_sublist hsub
  rw [canBeFound_iff]
  refine ⟨fun name hmem => ⟨fun hnul => ?_, hshort name hmem⟩, ?_⟩
  · apply (checkPath_eq_ok_iff.1 hpath).1
    rw [hbytes, mem_intercalate_iff (by decide)]
    exact ⟨name, hsub.subset hmem, hnul⟩
  · -- The path through the names starts with `./`, which is shorter than the full form's start.
    unfold homeLength at hlength
    omega

theorem exists_of_locateParent {disk : Disk} {path : NativePath} {place : Place}
    {name : List UInt8} (h : disk.locateParent path = .ok (place, name)) :
    checkFullPath path = .ok () ∧
      (stepsOf path).dropLast.foldlM disk.follow (startOf path) = .ok place ∧
      name = (stepsOf path).getLast?.getD [NativePath.dot] := by
  obtain ⟨⟨⟩, hcheck, hrest⟩ := bind_eq_ok_iff.1 h
  obtain ⟨found, hwalk, hrest⟩ := bind_eq_ok_iff.1 hrest
  split at hrest
  · cases hrest
    exact ⟨hcheck, hwalk, rfl⟩
  · cases hrest

/-- A new name in the directory that holds what a path names can be found. -/
theorem canBeFound_of_locateParent {disk : Disk} {path : NativePath} {place : Place}
    {name : List UInt8} (hparent : disk.locateParent path = .ok (place, name))
    (hname : isName name = true) (hlength : name.length ≤ maxName) {names : List (List UInt8)}
    (hnames : newNames place name = .ok names) : CanBeFound names := by
  obtain ⟨hcheck, hwalk, hlast⟩ := exists_of_locateParent hparent
  obtain ⟨hsub, hshort, houtside⟩ := names_foldlM hwalk
  cases place with
  | outside => cases hnames
  | inside trail =>
    -- An absolute path starts outside of the working directory and does not come back.
    have hrelative : path.isAbsolute = false := by
      rw [← Bool.not_eq_true]
      intro habsolute
      have hstart : startOf path = .outside := by rw [startOf, if_pos habsolute]
      cases houtside hstart
    have hstart : startOf path = .inside [] := by
      rw [startOf, hrelative, if_neg Bool.false_ne_true]
    obtain rfl : (Place.inside trail).names ++ [name] = names := by
      simpa [newNames, Place.names] using hnames
    rw [hstart] at hsub hshort
    -- The last piece is a name, so there is one.
    have hsteps : (stepsOf path).dropLast ++ [name] = stepsOf path := by
      cases hpieces : (stepsOf path).getLast? with
      | none =>
        rw [hpieces] at hlast
        rw [hlast] at hname
        cases hname
      | some last =>
        rw [hlast, hpieces]
        exact List.dropLast_append_getLast? last hpieces
    apply canBeFound_of_sublist_pieces hcheck hrelative
    · have hall : (stepsOf path).Sublist path.pieces := List.filter_sublist
      refine List.Sublist.trans ?_ hall
      rw [← hsteps]
      exact hsub.append_right [name]
    · intro other hother
      rcases List.mem_append.1 hother with hother | hother
      · exact (hshort other hother).resolve_left List.not_mem_nil
      · rw [List.mem_singleton.1 hother]
        exact hlength

/-! ## Operations -/

theorem length_le_of_find_eq_notFound {disk : Disk} {place : Place} {name : List UInt8}
    (h : disk.find place name = .error .notFound) : name.length ≤ maxName := by
  unfold find at h
  split at h
  · cases h
  · rename_i hshort
    exact Nat.not_lt.1 hshort

/-- What making a directory does if it is done. -/
theorem exists_of_makeDirectory {disk changed : Disk} {path : NativePath}
    (h : disk.makeDirectory path = .ok changed) :
    ∃ names, CanBeFound names ∧ changed = disk.put names (.directory []) := by
  unfold makeDirectory at h
  obtain ⟨⟨place, name⟩, hparent, h⟩ := bind_eq_ok_iff.1 h
  simp only at h
  split at h
  · cases h
  rename_i hname
  split at h
  · cases h
  · rename_i hfind
    obtain ⟨names, hnames, rfl⟩ := map_eq_ok_iff.1 h
    exact ⟨names, canBeFound_of_locateParent hparent (by simpa using hname)
      (length_le_of_find_eq_notFound hfind) hnames, rfl⟩
  · cases h

theorem canBeFound_of_openFile {disk : Disk} {path : NativePath} {names : List (List UInt8)}
    {old : List UInt8} (h : disk.openFile path = .ok (names, old)) : CanBeFound names := by
  unfold openFile at h
  obtain ⟨⟨place, name⟩, hparent, h⟩ := bind_eq_ok_iff.1 h
  simp only at h
  split at h
  · cases h
  rename_i hname
  obtain ⟨hisName, -⟩ : isName name = true ∧ endsWithSlash path = false := by simpa using hname
  -- The name is there already or it is new, which it can only be if it is not too long.
  have hdone : ∀ data : List UInt8, name.length ≤ maxName →
      (·, data) <$> newNames place name = .ok (names, old) → CanBeFound names := by
    intro data hlength hput
    obtain ⟨found, hnames, heq⟩ := map_eq_ok_iff.1 hput
    cases heq
    exact canBeFound_of_locateParent hparent hisName hlength hnames
  split at h
  · rename_i found hfind
    obtain ⟨trail, inner, -, hlength, -, -⟩ := find_eq_ok_iff.1 hfind
    split at h
    · exact hdone _ hlength h
    · cases h
  · rename_i hfind
    exact hdone _ (length_le_of_find_eq_notFound hfind) h
  · cases h

/-- What writing a file does if it is done. -/
theorem exists_of_write {disk changed : Disk} {path : NativePath} {data : List UInt8}
    {append : Bool} (h : disk.write path data append = .ok changed) :
    ∃ names written, CanBeFound names ∧ changed = disk.put names (.file written) := by
  unfold write at h
  obtain ⟨⟨names, old⟩, hopen, h⟩ := bind_eq_ok_iff.1 h
  cases h
  exact ⟨names, _, canBeFound_of_openFile hopen, rfl⟩

variable {disk : Disk}

theorem IsSound.ensureDirectory (hdisk : disk.IsSound) (path : NativePath) :
    (disk.ensureDirectory path).1.IsSound := by
  unfold Disk.ensureDirectory
  cases hmake : disk.makeDirectory path with
  | ok changed =>
    obtain ⟨names, hnames, rfl⟩ := exists_of_makeDirectory hmake
    exact hdisk.put hnames rfl
  | error error =>
    simp only
    split <;> exact hdisk

theorem IsSound.ensureDirectoryAfter (hdisk : disk.IsSound) (path : NativePath)
    {makeAbove : Unit → Disk × Except FileError Unit} (habove : (makeAbove ()).1.IsSound) :
    (disk.ensureDirectoryAfter path makeAbove).1.IsSound := by
  unfold Disk.ensureDirectoryAfter
  split
  · split
    · rename_i made hmade
      rw [hmade] at habove
      exact habove.ensureDirectory path
    · exact habove
  · exact hdisk.ensureDirectory path

theorem IsSound.makeDirectoriesAt (hdisk : disk.IsSound) (isAbsolute : Bool)
    (names : List (List UInt8)) : (disk.makeDirectoriesAt isAbsolute names).1.IsSound := by
  induction names with
  | nil => exact hdisk
  | cons name above ih => exact hdisk.ensureDirectoryAfter _ ih

theorem IsSound.makeDirectories (hdisk : disk.IsSound) (path : NativePath) :
    (disk.makeDirectories path).1.IsSound :=
  hdisk.ensureDirectoryAfter path (hdisk.makeDirectoriesAt path.isAbsolute (namesAbove path))

theorem IsSound.write (hdisk : disk.IsSound) {changed : Disk} {path : NativePath}
    {data : List UInt8} {append : Bool} (h : disk.write path data append = .ok changed) :
    changed.IsSound := by
  obtain ⟨names, written, hnames, rfl⟩ := exists_of_write h
  exact hdisk.put hnames rfl

theorem IsSound.finish {prepared : Disk × Except FileError Unit} (hprepared : prepared.1.IsSound)
    {next : Disk → Except FileError Disk}
    (hnext : ∀ changed, next prepared.1 = .ok changed → changed.IsSound) :
    (finish prepared next).1.IsSound := by
  obtain ⟨made, result⟩ := prepared
  cases result with
  | error error => exact hprepared
  | ok done =>
    unfold Disk.finish
    cases hresult : next made with
    | ok changed =>
      simp only [hresult]
      exact hnext changed hresult
    | error error =>
      simp only [hresult]
      exact hprepared

/-- Every change keeps a disk sound, whether it could be finished or not. -/
theorem IsSound.apply (hdisk : disk.IsSound) (change : Change) : (disk.apply change).1.IsSound := by
  cases change with
  | mkdir path => exact hdisk.makeDirectories (fromHere path)
  | touch path =>
    have habove := hdisk.makeDirectoriesAt (fromHere path).isAbsolute (namesAbove (fromHere path))
    exact habove.finish fun _ => habove.write
  | ruleFile directory text =>
    have hmade := hdisk.makeDirectories (fromHere directory)
    exact hmade.finish fun _ => hmade.write
  | write path data => exact IsSound.finish hdisk fun _ => hdisk.write

/-- The disk after some changes, those that fail included. -/
def applyAll (disk : Disk) (changes : List Change) : Disk :=
  changes.foldl (fun disk change => (disk.apply change).1) disk

theorem IsSound.applyAll (hdisk : disk.IsSound) (changes : List Change) :
    (disk.applyAll changes).IsSound := by
  induction changes generalizing disk with
  | nil => exact hdisk
  | cons change rest ih => exact ih (hdisk.apply change)

theorem isSound_empty : empty.IsSound := by
  intro names h
  rw [get?_eq_at?] at h
  rw [Entry.eq_nil_of_isSome_at? rfl h, canBeFound_iff]
  exact ⟨nofun, by decide⟩

theorem isSound_versioned : versioned.IsSound := by
  have hputs : versioned = ((empty.put [Utf8.encode ".git".toList] (.directory [])).put
      [Utf8.encode ".git".toList, Utf8.encode "HEAD".toList]
        (.file (Utf8.encode "ref: refs/heads/main\n".toList))).put
      [Utf8.encode ".git".toList, Utf8.encode "config".toList]
        (.file (Utf8.encode "[core]\n\tbare = false\n".toList)) := rfl
  rw [hputs]
  refine ((isSound_empty.put ?_ rfl).put ?_ rfl).put ?_ rfl
  all_goals
    rw [canBeFound_iff]
    decide

end PathIgnore.Disk
