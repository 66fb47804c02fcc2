import PathIgnore.Disk

/-!
# What stands where

An entry is found by going into one directory after the other. A change puts one entry in its place,
and nothing else comes up but the directories that lead to it (`isPrefix_or_isSome_of_get?_put`).
-/

namespace PathIgnore

namespace Entry

/-- The entry that names lead to from an entry. -/
def at? : List (List UInt8) → Entry → Option Entry
  | [], entry => some entry
  | name :: rest, entry => (entry.entries.lookup name).bind (at? rest)

/-- The data of a file. -/
def data? : Entry → Option (List UInt8)
  | .file data => some data
  | .directory _ => none

@[simp] theorem at?_cons (name : List UInt8) (rest : List (List UInt8)) (entry : Entry) :
    at? (name :: rest) entry = (entry.entries.lookup name).bind (at? rest) := rfl

@[simp] theorem at?_singleton (name : List UInt8) (entry : Entry) :
    at? [name] entry = entry.entries.lookup name := by
  rw [at?_cons]
  cases entry.entries.lookup name <;> rfl

theorem at?_append (names more : List (List UInt8)) (entry : Entry) :
    at? (names ++ more) entry = (at? names entry).bind (at? more) := by
  induction names generalizing entry with
  | nil => rfl
  | cons name rest ih =>
    rw [List.cons_append, at?_cons, at?_cons, Option.bind_assoc]
    exact congrArg _ (funext ih)

/-- Only what stands in an entry counts for the names below it. -/
theorem isSome_at?_entries (entry : Entry) (names : List (List UInt8)) :
    (at? names (.directory entry.entries)).isSome = (at? names entry).isSome := by
  cases names <;> rfl

/-- Nothing is found below an entry that holds nothing. -/
theorem eq_nil_of_isSome_at? {names : List (List UInt8)} {entry : Entry}
    (hentry : entry.entries = []) (h : (at? names entry).isSome) : names = [] := by
  cases names with
  | nil => rfl
  | cons name rest => simp [hentry] at h

/-- Something stands only in directories. -/
theorem eq_directory_of_lookup {entry inner : Entry} {name : List UInt8}
    (h : entry.entries.lookup name = some inner) : entry = .directory entry.entries := by
  cases entry with
  | directory entries => rfl
  | file data => cases h

theorem lookupAt?_eq_at? (names : List (List UInt8)) (entries : List (List UInt8 × Entry)) :
    lookupAt? names entries = at? names (.directory entries) := by
  induction names generalizing entries with
  | nil => rfl
  | cons name rest ih =>
    cases rest with
    | nil => exact (at?_singleton name (.directory entries)).symm
    | cons next rest =>
      rw [lookupAt?, at?_cons]
      congr 1
      funext entry
      exact ih entry.entries

/-- The entries of a directory after a change, by the first name that leads to the place of the
change. -/
theorem putAt_cons (entry : Entry) (name : List UInt8) (rest : List (List UInt8))
    (entries : List (List UInt8 × Entry)) :
    ∃ changed, putAt entry (name :: rest) entries = put name changed entries ∧
      (rest = [] ∧ changed = entry ∨
        changed = .directory (putAt entry rest (((entries.lookup name).map Entry.entries).getD []))
          ∧ rest ≠ []) := by
  cases rest with
  | nil => exact ⟨entry, rfl, .inl ⟨rfl, rfl⟩⟩
  | cons next rest => exact ⟨_, rfl, .inr ⟨rfl, List.cons_ne_nil next rest⟩⟩

theorem isPrefix_or_isSome_of_putAt {entry : Entry} (hentry : entry.entries = [])
    {names other : List (List UInt8)} {entries : List (List UInt8 × Entry)}
    (h : (at? other (.directory (putAt entry names entries))).isSome) :
    other <+: names ∨ (at? other (.directory entries)).isSome := by
  induction names generalizing other entries with
  | nil => exact .inr h
  | cons name rest ih =>
    cases other with
    | nil => exact .inl List.nil_prefix
    | cons first more =>
      obtain ⟨changed, hput, hchanged⟩ := putAt_cons entry name rest entries
      rw [hput, at?_cons] at h
      simp only [Entry.entries] at h
      rcases Classical.em (first = name) with rfl | hne
      · rw [Disk.lookup_put_self, Option.bind_some] at h
        rcases hchanged with ⟨rfl, rfl⟩ | ⟨rfl, -⟩
        · rw [eq_nil_of_isSome_at? hentry h]
          exact .inl (List.prefix_refl _)
        · rcases ih h with hprefix | hinside
          · exact .inl (List.prefix_cons_inj first |>.2 hprefix)
          · rw [at?_cons]
            simp only [Entry.entries]
            cases hlookup : entries.lookup first with
            | none =>
              -- The directory that is made for the change holds nothing else.
              rw [hlookup] at hinside
              rw [eq_nil_of_isSome_at? rfl hinside]
              exact .inl (List.prefix_cons_inj first |>.2 List.nil_prefix)
            | some inner =>
              rw [hlookup] at hinside
              exact .inr ((isSome_at?_entries inner more).symm.trans hinside)
      · rw [Disk.lookup_put_of_ne hne] at h
        exact .inr h

end Entry

namespace Disk

theorem get?_eq_at? (disk : Disk) (names : List (List UInt8)) :
    disk.get? names = Entry.at? names (.directory disk.entries) :=
  Entry.lookupAt?_eq_at? names disk.entries

/-- An entry stands in the directory that the names before its last one lead to. -/
theorem get?_concat (disk : Disk) (names : List (List UInt8)) (name : List UInt8) :
    disk.get? (names ++ [name]) =
      (disk.get? names).bind fun entry => entry.entries.lookup name := by
  rw [get?_eq_at?, get?_eq_at?, Entry.at?_append]
  exact congrArg _ (funext fun entry => Entry.at?_singleton name entry)

/-- All names on the way to an entry are those of directories. -/
theorem exists_directory_of_get?_append {disk : Disk} {names more : List (List UInt8)}
    (hmore : more ≠ []) (h : (disk.get? (names ++ more)).isSome) :
    ∃ entries, disk.get? names = some (.directory entries) := by
  cases more with
  | nil => exact absurd rfl hmore
  | cons name rest =>
    rw [get?_eq_at?, Entry.at?_append] at h
    rw [get?_eq_at?]
    cases hfound : Entry.at? names (.directory disk.entries) with
    | none => simp [hfound] at h
    | some entry =>
      rw [hfound, Option.bind_some, Entry.at?_cons] at h
      cases hlookup : entry.entries.lookup name with
      | none => simp [hlookup] at h
      | some inner => exact ⟨entry.entries, congrArg some (Entry.eq_directory_of_lookup hlookup)⟩

/-- What is found after a change was there before, or is on the way to the entry that was put. -/
theorem isPrefix_or_isSome_of_get?_put {disk : Disk} {entry : Entry} (hentry : entry.entries = [])
    {names other : List (List UInt8)} (h : ((disk.put names entry).get? other).isSome) :
    other <+: names ∨ (disk.get? other).isSome := by
  rw [get?_eq_at?] at h ⊢
  exact Entry.isPrefix_or_isSome_of_putAt hentry h

end Disk

end PathIgnore
