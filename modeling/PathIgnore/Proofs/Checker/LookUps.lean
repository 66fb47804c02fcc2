import PathIgnore.Proofs.Checker.KeptRules

/-!
# Look-ups one after the other

Which rule files are read when the rules of several directories are looked up, and which directories
the store keeps rules for afterwards. A climb looks up the directories that it consults, in the
order of its visits, and does nothing else to the tree and to the store (`looksUp_climb`).
-/

namespace PathIgnore

/-- Whether the rules of a directory are kept. Without a store, none are. -/
def isKept (store : Option Store) (directory : TreePath) : Bool :=
  (store.bind (·.get? directory)).isSome

/-- The rules of some directories are looked up, one after the other. -/
def lookUpAll (source : Source) : List TreePath → Option Store → Outcome Unit
  | [], store => ⟨(), .empty, store⟩
  | directory :: rest, store =>
    let found := rulesAt source directory store
    (lookUpAll source rest found.store).after found.log

section

variable {source : Source}

/-! ## One look-up -/

/-- A rule file is read unless its rules are kept. -/
theorem asked_rulesAt (source : Source) (directory : TreePath) (store : Option Store) :
    (rulesAt source directory store).log.asked =
      if isKept store directory then [] else [directory] := by
  cases store with
  | none => exact asked_loadRules source directory
  | some store =>
    have hkept : isKept (some store) directory = (store.get? directory).isSome := rfl
    simp only [rulesAt, Store.report_getOrLoad, hkept]
    cases (store.get? directory).isSome with
    | true => rfl
    | false => exact asked_loadRules source directory

/-- What has been read is kept from then on. -/
theorem isKept_rulesAt_some (directory : TreePath) (store : Store) (other : TreePath) :
    isKept (rulesAt source directory (some store)).store other =
      (isKept (some store) other ||
        (decide (other = directory) && (source.readLines? other).isSome)) := by
  obtain ⟨-, after, hafter, hkeeps⟩ := rulesAt_some source directory store
  rw [isKept, isKept, hafter, Option.bind_some, Option.bind_some, hkeeps other]
  by_cases h : other = directory <;> simp [h]

theorem isKept_rulesAt_of_ne {directory other : TreePath} (h : other ≠ directory)
    (store : Option Store) :
    isKept (rulesAt source directory store).store other = isKept store other := by
  cases store with
  | none => rfl
  | some store => simp [isKept_rulesAt_some, h]

theorem isKept_rulesAt_of_isKept {directory other : TreePath} {store : Option Store}
    (h : isKept store other) : isKept (rulesAt source directory store).store other = true := by
  cases store with
  | none => cases h
  | some store => simp [isKept_rulesAt_some, h]

/-! ## Several look-ups -/

theorem asked_lookUpAll_cons (directory : TreePath) (rest : List TreePath)
    (store : Option Store) :
    (lookUpAll source (directory :: rest) store).log.asked =
      (if isKept store directory then [] else [directory]) ++
        (lookUpAll source rest (rulesAt source directory store).store).log.asked := by
  rw [← asked_rulesAt source]
  rfl

theorem lookUpAll_append (source : Source) (first second : List TreePath)
    (store : Option Store) :
    (lookUpAll source (first ++ second) store).log.asked =
        (lookUpAll source first store).log.asked ++
          (lookUpAll source second (lookUpAll source first store).store).log.asked ∧
      (lookUpAll source (first ++ second) store).store =
        (lookUpAll source second (lookUpAll source first store).store).store := by
  induction first generalizing store with
  | nil => exact ⟨rfl, rfl⟩
  | cons directory rest ih =>
    obtain ⟨hasked, hstore⟩ := ih (rulesAt source directory store).store
    refine ⟨?_, hstore⟩
    rw [List.cons_append, asked_lookUpAll_cons, hasked, asked_lookUpAll_cons, List.append_assoc]
    rfl

/-- The rule files of all directories are read but of those that were kept at the start. -/
theorem mem_asked_lookUpAll {directories : List TreePath} {store : Option Store}
    {directory : TreePath} :
    directory ∈ (lookUpAll source directories store).log.asked ↔
      directory ∈ directories ∧ isKept store directory = false := by
  induction directories generalizing store with
  | nil => simp [lookUpAll, Log.empty]
  | cons next rest ih =>
    rw [asked_lookUpAll_cons, List.mem_append, ih, List.mem_cons]
    rcases eq_or_ne directory next with rfl | hne
    · cases hkept : isKept store directory with
      | true => simp [isKept_rulesAt_of_isKept hkept]
      | false => simp
    · rw [isKept_rulesAt_of_ne hne]
      cases isKept store next <;> simp [hne]

/-- With a store, a rule file that can be read is read at most once. -/
theorem count_asked_lookUpAll_le_one {directory : TreePath}
    (hreadable : (source.readLines? directory).isSome) (directories : List TreePath)
    (store : Store) :
    (lookUpAll source directories (some store)).log.asked.count directory ≤ 1 := by
  induction directories generalizing store with
  | nil => exact Nat.zero_le 1
  | cons next rest ih =>
    obtain ⟨-, after, hafter, -⟩ := rulesAt_some source next store
    rw [asked_lookUpAll_cons, hafter, List.count_append]
    cases hkept : isKept (some store) next with
    | true => simpa using ih after
    | false =>
      rcases eq_or_ne next directory with rfl | hne
      · -- It is read here, and kept for all look-ups that follow.
        have hnot : next ∉ (lookUpAll source rest (some after)).log.asked := by
          rw [mem_asked_lookUpAll, ← hafter, isKept_rulesAt_some]
          simp [hreadable]
        simp [List.count_eq_zero_of_not_mem hnot]
      · simpa [hne] using ih after

/-- If no directory is looked up twice, none is read twice, with or without a store. -/
theorem asked_lookUpAll_of_nodup {directories : List TreePath} (h : directories.Nodup)
    (store : Option Store) :
    (lookUpAll source directories store).log.asked = directories.filter (!isKept store ·) := by
  induction directories generalizing store with
  | nil => rfl
  | cons next rest ih =>
    obtain ⟨hnext, hrest⟩ := List.nodup_cons.1 h
    have hfilter : rest.filter (!isKept (rulesAt source next store).store ·) =
        rest.filter (!isKept store ·) := by
      apply List.filter_congr
      intro other hother
      rw [isKept_rulesAt_of_ne (ne_of_mem_of_not_mem hother hnext)]
    rw [asked_lookUpAll_cons, ih hrest, hfilter, List.filter_cons]
    cases isKept store next <;> rfl

theorem store_lookUpAll_none (directories : List TreePath) :
    (lookUpAll source directories none).store = none := by
  induction directories with
  | nil => rfl
  | cons next rest ih => exact ih

theorem store_lookUpAll_some (directories : List TreePath) (store : Store) :
    ∃ after, (lookUpAll source directories (some store)).store = some after ∧
      store.KeepsAlso source directories after := by
  induction directories generalizing store with
  | nil => exact ⟨store, rfl, .refl source store⟩
  | cons next rest ih =>
    obtain ⟨-, between, hbetween, hkeeps⟩ := rulesAt_some source next store
    obtain ⟨after, hafter, hkeepsAfter⟩ := ih between
    refine ⟨after, ?_, hkeeps.trans hkeepsAfter⟩
    rw [← hafter, ← hbetween]
    rfl

end

/-! ## Climbing -/

/-- The outcome has read what looking up these directories reads, and leaves the store as that
does. -/
structure Outcome.LooksUp {α : Type} (outcome : Outcome α) (source : Source)
    (directories : List TreePath) (store : Option Store) : Prop where
  asked : outcome.log.asked = (lookUpAll source directories store).log.asked
  store : outcome.store = (lookUpAll source directories store).store

namespace Outcome.LooksUp

variable {α β : Type} {outcome : Outcome α} {source : Source} {directories : List TreePath}
  {store : Option Store}

theorem map (h : outcome.LooksUp source directories store) (f : α → β) :
    (outcome.map f).LooksUp source directories store :=
  ⟨h.asked, h.store⟩

theorem before (h : outcome.LooksUp source directories store) (events : List Event) :
    (outcome.before (.reported events)).LooksUp source directories store := by
  refine ⟨?_, h.store⟩
  simp only [Outcome.before, Log.asked_append, Log.reported, List.append_nil, h.asked]

/-- Nothing was looked up. -/
theorem same (value : α) {log : Log} (hlog : log.asked = []) (source : Source)
    (store : Option Store) : (⟨value, log, store⟩ : Outcome α).LooksUp source [] store :=
  ⟨hlog, rfl⟩

end Outcome.LooksUp

section

variable {source : Source} {metadataName : Text} {path : TreePath}

theorem looksUp_climb {isDirectory : Bool} {ancestors : List Ancestor}
    (hancestors : ∀ ancestor ∈ ancestors, ancestor.IsSeenFrom metadataName path)
    (store : Option Store) :
    (climb source isDirectory ancestors store).LooksUp source
      (consulted metadataName path (climb source isDirectory ancestors store).log.visits)
      store := by
  induction ancestors generalizing store with
  | nil => exact .same _ rfl source store
  | cons ancestor rest ih =>
    have hself := consulted_singleton (hancestors ancestor (by simp))
    have hrest := fun other hmem => hancestors other (List.mem_cons_of_mem ancestor hmem)
    unfold climb
    cases hm : ancestor.metadata with
    | true =>
      simp only [if_true, Log.visited, hself, hm, Bool.true_or]
      exact .same _ rfl source store
    | false =>
      cases hv : ancestor.view.isEmpty with
      | true =>
        simp only [Bool.false_eq_true, if_false, if_true, Outcome.after, Log.visits_append,
          Log.visited, consulted_append, hself, hm, hv, Bool.or_true, List.nil_append]
        exact ⟨(ih hrest store).asked, (ih hrest store).store⟩
      | false =>
        simp only [Bool.false_eq_true, if_false]
        cases (rulesAt source ancestor.path store).value.lastMatch? ancestor.view isDirectory with
        | some rule =>
          simp only [Log.visits_append, visits_rulesAt, Log.visited, hself, hm, hv, Bool.or_self,
            Bool.false_eq_true, if_false, List.nil_append]
          exact ⟨rfl, rfl⟩
        | none =>
          obtain ⟨hasked, hstore⟩ := ih hrest (rulesAt source ancestor.path store).store
          simp only [Outcome.after, Log.visits_append, visits_rulesAt, Log.visited,
            consulted_append, hself, hm, hv, Bool.or_self, Bool.false_eq_true, if_false,
            List.nil_append]
          refine ⟨?_, hstore⟩
          simp only [Log.asked_append, List.append_nil, hasked]
          rfl

/-- Deciding about a path looks up the directories that are consulted for it. -/
theorem looksUp_judge (source : Source) (metadataName : Text) (path : TreePath)
    (store : Option Store) :
    (judge source metadataName path store).LooksUp source
      (consulted metadataName path (judge source metadataName path store).log.visits) store := by
  unfold judge
  simp only [Outcome.before, Log.visits_append, Log.reported, List.append_nil]
  exact (looksUp_climb (fun _ => isSeenFrom_of_mem_lineage) store).before _

end

end PathIgnore
