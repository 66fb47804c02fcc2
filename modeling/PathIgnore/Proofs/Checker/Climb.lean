import PathIgnore.Checker
import PathIgnore.Proofs.Rules.LastMatch

/-!
# The climb without a store

A checker that keeps no rules decides as the first directory of the lineage does that has an opinion
(`climb_none_value`), and asks the tree only for rule files of directories that the path lies in
(`exists_of_mem_asked_climb`).
-/

namespace PathIgnore

/-- The rules of a directory as its rule file gives them. A rule file that is absent or cannot be
read gives none. -/
def Source.rulesAt (source : Source) (directory : TreePath) : Rules :=
  match source.linesAt directory with
  | .ok (some lines) => .ofLines lines
  | _ => []

/-- What a directory of a lineage decides by itself, if it has an opinion. -/
def Ancestor.decision? (source : Source) (isDirectory : Bool) (ancestor : Ancestor) :
    Option Decision :=
  if ancestor.metadata then some (.byMetadata ancestor.path)
  else
    ((source.rulesAt ancestor.path).lastMatch? ancestor.view isDirectory).map
      (.byRule ancestor.path)

theorem getD_loadRules (source : Source) (directory : TreePath) :
    (loadRules source directory).1.getD [] = source.rulesAt directory := by
  unfold loadRules Source.rulesAt
  cases source.linesAt directory with
  | error error => rfl
  | ok lines => cases lines <;> rfl

@[simp] theorem rulesAt_none_value (source : Source) (directory : TreePath) :
    (rulesAt source directory none).value = source.rulesAt directory :=
  getD_loadRules source directory

@[simp] theorem rulesAt_none_store (source : Source) (directory : TreePath) :
    (rulesAt source directory none).store = none := rfl

theorem climb_none_value (source : Source) (isDirectory : Bool) (ancestors : List Ancestor) :
    (climb source isDirectory ancestors none).value =
      (ancestors.findSome? (Ancestor.decision? source isDirectory)).getD .undecided := by
  induction ancestors with
  | nil => rfl
  | cons ancestor rest ih =>
    rw [List.findSome?_cons, climb, Ancestor.decision?]
    split
    · rfl
    split
    · -- The path itself: nothing covers the empty text, so nothing is decided here.
      rename_i hview
      rw [List.isEmpty_iff.1 hview, Rules.lastMatch?_empty_path]
      exact ih
    · simp only [rulesAt_none_value, rulesAt_none_store]
      cases (source.rulesAt ancestor.path).lastMatch? ancestor.view isDirectory with
      | none => exact ih
      | some rule => rfl

@[simp] theorem climb_none_store (source : Source) (isDirectory : Bool)
    (ancestors : List Ancestor) : (climb source isDirectory ancestors none).store = none := by
  induction ancestors with
  | nil => rfl
  | cons ancestor rest ih =>
    unfold climb
    split
    · rfl
    split
    · exact ih
    · simp only [rulesAt_none_store]
      split
      · rfl
      · exact ih

theorem asked_loadRules (source : Source) (directory : TreePath) :
    (loadRules source directory).2.asked = [directory] := by
  unfold loadRules
  split <;> rfl

/-- A look-up does nothing but read the rule file, if it does anything at all. -/
theorem log_rulesAt (source : Source) (directory : TreePath) (store : Option Store) :
    (rulesAt source directory store).log = .empty ∨
      (rulesAt source directory store).log = (loadRules source directory).2 := by
  cases store with
  | none => exact .inr rfl
  | some store =>
    simp only [rulesAt, Store.report_getOrLoad]
    split
    · exact .inl rfl
    · exact .inr rfl

theorem eq_of_mem_asked_rulesAt {source : Source} {directory asked : TreePath}
    {store : Option Store} (h : asked ∈ (rulesAt source directory store).log.asked) :
    asked = directory := by
  rcases log_rulesAt source directory store with hlog | hlog
  · rw [hlog] at h
    cases h
  · rw [hlog, asked_loadRules] at h
    exact List.mem_singleton.1 h

/-- The tree is only asked for rule files of directories from which some of the path is seen. -/
theorem exists_of_mem_asked_climb {source : Source} {isDirectory : Bool}
    {ancestors : List Ancestor} {store : Option Store} {directory : TreePath}
    (h : directory ∈ (climb source isDirectory ancestors store).log.asked) :
    ∃ ancestor ∈ ancestors, ancestor.path = directory ∧ ancestor.view ≠ [] := by
  induction ancestors generalizing store with
  | nil => cases h
  | cons ancestor rest ih =>
    have hrest : ∀ store, directory ∈ (climb source isDirectory rest store).log.asked →
        ∃ ancestor' ∈ ancestor :: rest, ancestor'.path = directory ∧ ancestor'.view ≠ [] := by
      intro store h
      obtain ⟨other, hmem, hother⟩ := ih h
      exact ⟨other, List.mem_cons_of_mem _ hmem, hother⟩
    unfold climb at h
    split at h
    · cases h
    split at h
    · exact hrest store h
    · rename_i hview
      have hself : directory ∈ (rulesAt source ancestor.path store).log.asked →
          ∃ ancestor' ∈ ancestor :: rest, ancestor'.path = directory ∧ ancestor'.view ≠ [] := by
        intro h
        refine ⟨ancestor, by simp, (eq_of_mem_asked_rulesAt h).symm, ?_⟩
        simpa using hview
      simp only at h
      split at h
      · rw [Log.asked_append, List.mem_append] at h
        rcases h with h | h
        · exact hself h
        · cases h
      · rw [Outcome.after, Log.asked_append, Log.asked_append, List.append_assoc,
          List.mem_append] at h
        rcases h with h | h
        · exact hself h
        · exact hrest _ h

/-- A checker that is not going to keep rules climbs without a store. -/
theorem resolve_new_of_not_keeping (root : NativePath) {settings : Settings}
    (hkeep : settings.keepRules = false) (source : Source) (path : TreePath) :
    (Checker.new root settings).resolve source path =
      judge source settings.metadataName path none := by
  simp [Checker.resolve, Checker.new, hkeep]

end PathIgnore
