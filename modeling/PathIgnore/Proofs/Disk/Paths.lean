import PathIgnore.Proofs.Disk.Entries
import PathIgnore.Proofs.NativePath.Names

/-!
# Following paths

A path of plain names leads to what stands under these names, if every name, and the path, is short
enough to be followed (`foldlM_follow_iff`). A disk on which every entry can be found (`IsSound`)
answers a path of plain names by what stands there, so errors tell only that nothing does
(`IsSound.found?_ofNames`).
-/

namespace PathIgnore

theorem bind_eq_ok_iff {ε α β : Type} {x : Except ε α} {f : α → Except ε β} {b : β} :
    x >>= f = .ok b ↔ ∃ a, x = .ok a ∧ f a = .ok b := by
  cases x with
  | error e => exact ⟨nofun, fun ⟨_, h, _⟩ => nomatch h⟩
  | ok a =>
    constructor
    · exact fun h => ⟨a, rfl, h⟩
    · rintro ⟨_, ⟨rfl⟩, h⟩
      exact h

theorem map_eq_ok_iff {ε α β : Type} {x : Except ε α} {f : α → β} {b : β} :
    f <$> x = .ok b ↔ ∃ a, x = .ok a ∧ f a = b := by
  cases x with
  | error e => exact ⟨nofun, fun ⟨_, h, _⟩ => nomatch h⟩
  | ok a =>
    constructor
    · rintro ⟨rfl⟩
      exact ⟨a, rfl, rfl⟩
    · rintro ⟨_, ⟨rfl⟩, rfl⟩
      rfl

namespace Disk

open NativePath (IsPlain ofNames)

variable {disk : Disk} {names : List (List UInt8)} {entry : Entry}

theorem stepsOf_ofNames (h : ∀ name ∈ names, IsPlain name) :
    stepsOf (ofNames names) = [NativePath.dot] :: names := by
  rw [stepsOf, NativePath.pieces_ofNames h, List.filter_eq_self]
  intro piece hpiece
  rcases List.mem_cons.1 hpiece with rfl | hpiece
  · rfl
  · simpa using (h piece hpiece).1

theorem endsWithSlash_ofNames (h : ∀ name ∈ names, IsPlain name) :
    endsWithSlash (ofNames names) = false := by
  rw [endsWithSlash, decide_eq_false_iff_not]
  exact NativePath.getLast?_ofNames h

/-! ## One name after the other -/

theorem find_eq_ok_iff {place next : Place} {name : List UInt8} :
    disk.find place name = .ok next ↔
      ∃ trail inner, place = .inside trail ∧ name.length ≤ maxName ∧
        (disk.entryAt place).entries.lookup name = some inner ∧
        next = .inside ((name, inner) :: trail) := by
  unfold find
  split
  · rename_i hlong
    refine ⟨nofun, fun ⟨_, _, _, hshort, _⟩ => absurd hshort (Nat.not_le.2 hlong)⟩
  rename_i hshort
  cases place with
  | outside => exact ⟨nofun, fun ⟨_, _, h, _⟩ => nomatch h⟩
  | inside trail =>
    simp only
    cases hlookup : (disk.entryAt (.inside trail)).entries.lookup name with
    | none => simp
    | some inner => simp [Nat.not_lt.1 hshort, eq_comm]

/-- Following a name leads to the entry under it. -/
theorem follow_eq_ok_iff {place next : Place} {name : List UInt8} (hname : IsPlain name) :
    disk.follow place name = .ok next ↔ disk.find place name = .ok next := by
  unfold follow
  split
  · rename_i hnot
    refine ⟨nofun, fun hfind => ?_⟩
    obtain ⟨trail, inner, -, -, hlookup, -⟩ := find_eq_ok_iff.1 hfind
    rw [isDirectoryAt, Entry.eq_directory_of_lookup hlookup] at hnot
    cases hnot
  · rw [if_neg hname.2.1, if_neg hname.2.2.1]

theorem foldlM_follow_iff (h : ∀ name ∈ names, IsPlain name) :
    (∃ place, names.foldlM disk.follow (.inside []) = .ok place ∧ disk.entryAt place = entry) ↔
      disk.get? names = some entry ∧ ∀ name ∈ names, name.length ≤ maxName := by
  -- The last name is followed last, so the induction takes names off the end.
  induction names using List.reverseRecOn generalizing entry with
  | nil => simp [entryAt, pure, Except.pure]
  | append_singleton front name ih =>
    have hname := h name (by simp)
    have hplain : ∀ other ∈ front, IsPlain other :=
      fun other hmem => h other (List.mem_append_left _ hmem)
    simp only [List.foldlM_append, List.foldlM_cons, List.foldlM_nil, bind_pure, bind_eq_ok_iff,
      follow_eq_ok_iff hname, get?_concat, List.forall_mem_append, List.forall_mem_singleton]
    constructor
    · rintro ⟨next, ⟨place, hplace, hfind⟩, rfl⟩
      obtain ⟨trail, inner, rfl, hshort, hlookup, rfl⟩ := find_eq_ok_iff.1 hfind
      obtain ⟨hget, hshorts⟩ := (ih hplain).1 ⟨_, hplace, rfl⟩
      rw [hget]
      exact ⟨hlookup, hshorts, hshort⟩
    · rintro ⟨hget, hshorts, hshort⟩
      obtain ⟨parent, hparent, hlookup⟩ := Option.bind_eq_some_iff.1 hget
      obtain ⟨place, hplace, rfl⟩ := (ih hplain).2 ⟨hparent, hshorts⟩
      cases place with
      -- Outside of the working directory nothing is found, so the names do not lead there.
      | outside => cases hlookup
      | inside trail =>
        exact ⟨_, ⟨_, hplace, find_eq_ok_iff.2 ⟨trail, entry, rfl, hshort, hlookup, rfl⟩⟩, rfl⟩

/-! ## What is found -/

/-- What a path leads to, if it can be followed. -/
def found? (disk : Disk) (path : NativePath) : Option Entry :=
  (disk.locate path).toOption.map disk.entryAt

/-- Whether the path through these names can be followed on a disk where they lead to something. -/
def CanBeFound (names : List (List UInt8)) : Prop :=
  checkPath (ofNames names) = .ok () ∧ ∀ name ∈ names, name.length ≤ maxName

/-- Whether everything on the disk can be found. -/
def IsSound (disk : Disk) : Prop :=
  ∀ names, (disk.get? names).isSome → CanBeFound names

theorem found?_eq_some_iff {path : NativePath} :
    disk.found? path = some entry ↔ ∃ place, disk.locate path = .ok place ∧
      disk.entryAt place = entry := by
  unfold found?
  cases disk.locate path <;> simp [Except.toOption]

theorem locate_ofNames_eq_ok_iff (h : ∀ name ∈ names, IsPlain name) {place : Place} :
    disk.locate (ofNames names) = .ok place ↔
      checkPath (ofNames names) = .ok () ∧ names.foldlM disk.follow (.inside []) = .ok place := by
  have hstart : startOf (ofNames names) = .inside [] := by
    rw [startOf, NativePath.isAbsolute_ofNames, if_neg Bool.false_ne_true]
  have hdot : disk.follow (.inside []) [NativePath.dot] = .ok (.inside []) := rfl
  simp only [locate, bind_eq_ok_iff, stepsOf_ofNames h, hstart, endsWithSlash_ofNames h,
    List.foldlM_cons, hdot, Bool.false_and, Bool.false_eq_true, if_false, Except.ok.injEq,
    exists_eq_left', exists_eq_right]
  exact ⟨fun ⟨_, hcheck, hwalk⟩ => ⟨hcheck, hwalk⟩, fun ⟨hcheck, hwalk⟩ => ⟨(), hcheck, hwalk⟩⟩

theorem found?_ofNames_eq_some_iff (h : ∀ name ∈ names, IsPlain name) :
    disk.found? (ofNames names) = some entry ↔ disk.get? names = some entry ∧ CanBeFound names := by
  simp only [found?_eq_some_iff, locate_ofNames_eq_ok_iff h]
  constructor
  · rintro ⟨place, ⟨hcheck, hwalk⟩, hentry⟩
    obtain ⟨hget, hshort⟩ := (foldlM_follow_iff h).1 ⟨place, hwalk, hentry⟩
    exact ⟨hget, hcheck, hshort⟩
  · rintro ⟨hget, hcheck, hshort⟩
    obtain ⟨place, hwalk, hentry⟩ := (foldlM_follow_iff h).2 ⟨hget, hshort⟩
    exact ⟨place, ⟨hcheck, hwalk⟩, hentry⟩

theorem IsSound.found?_ofNames (hdisk : disk.IsSound) (h : ∀ name ∈ names, IsPlain name) :
    disk.found? (ofNames names) = disk.get? names := by
  ext entry
  rw [found?_ofNames_eq_some_iff h, and_iff_left_iff_imp]
  exact fun hget => hdisk names (Option.isSome_of_eq_some hget)

theorem toOption_read (disk : Disk) (path : NativePath) :
    (disk.read path).toOption = (disk.found? path).bind Entry.data? := by
  unfold read found?
  cases disk.locate path with
  | error error => rfl
  | ok place =>
    simp only [bind, Except.bind, Except.toOption, Option.map_some, Option.bind_some]
    cases disk.entryAt place <;> rfl

theorem isDirectory_eq (disk : Disk) (path : NativePath) :
    disk.isDirectory path = (disk.found? path).any Entry.isDirectory := by
  unfold isDirectory found?
  cases disk.locate path <;> rfl

end Disk

end PathIgnore
