import PathIgnore.Session
import PathIgnore.Proofs.Checker.KeptRules

/-!
# Trees that stay as they are

As long as its tree stays as it is, a checker decides about a path as one does that keeps no rules,
whatever it was asked before (`resolve_askAll_value`). The invariant is that the rules that it keeps
are those of the tree.
-/

namespace PathIgnore

/-- The checker after it was asked some queries about a tree. -/
def Checker.askAll (source : Source) (checker : Checker) (queries : List Query) : Checker :=
  queries.foldl (fun checker query => checker.withStore (checker.answer source query).store) checker

/-- Whether the rules that are kept, if any are, are those that the tree gives. -/
def KeepsTo (source : Source) (store : Option Store) : Prop :=
  ∀ kept, store = some kept → ∀ directory, kept.rulesAt source directory = source.rulesAt directory

section

variable {source : Source} {store : Option Store}

theorem keepsTo_none : KeepsTo source none := by
  intro kept h
  cases h

theorem keepsTo_empty : KeepsTo source (some .empty) := by
  rintro _ ⟨⟩ directory
  rw [Store.rulesAt, Store.get?_empty, Option.getD_none]

theorem KeepsTo.of_matches {α : Type} {cached plain : Outcome α} {kept : Store}
    {directories : List TreePath} (h : KeepsTo source (some kept))
    (hmatches : cached.Matches plain source kept directories) : KeepsTo source cached.store := by
  obtain ⟨after, hafter, hkeeps⟩ := hmatches.store
  rw [hafter]
  rintro _ ⟨⟩ directory
  rw [hkeeps.rulesAt_eq, h kept rfl]

theorem KeepsTo.rulesAt (h : KeepsTo source store) (directory : TreePath) :
    KeepsTo source (rulesAt source directory store).store := by
  cases store with
  | none => exact keepsTo_none
  | some kept => exact h.of_matches (rulesAt_matches (fun d => (h kept rfl d).symm) directory)

/-- The step: a decision is the one that is made without a store, and it leaves the invariant. -/
theorem KeepsTo.judge (h : KeepsTo source store) (metadataName : Text) (path : TreePath) :
    (judge source metadataName path store).value = (judge source metadataName path none).value ∧
      KeepsTo source (judge source metadataName path store).store := by
  cases store with
  | none =>
    refine ⟨rfl, ?_⟩
    simp only [PathIgnore.judge, Outcome.before, climb_none_store]
    exact keepsTo_none
  | some kept =>
    have hmatches := judge_some metadataName path (fun d => (h kept rfl d).symm) rfl
    exact ⟨hmatches.value, h.of_matches hmatches⟩

end

namespace Checker

variable {checker : Checker} {source : Source}

theorem keepsTo_new (root : NativePath) (settings : Settings) (source : Source) :
    KeepsTo source (Checker.new root settings).store := by
  unfold Checker.new
  cases settings.keepRules with
  | true => exact keepsTo_empty
  | false => exact keepsTo_none

theorem keepsTo_explain (h : KeepsTo source checker.store) (candidate : NativePath) :
    KeepsTo source (checker.explain source candidate).store := by
  unfold explain
  cases checker.locate candidate with
  | ok path => exact (h.judge checker.settings.metadataName path).2
  | error error => exact h

theorem keepsTo_isIgnored (h : KeepsTo source checker.store) (candidate : NativePath) :
    KeepsTo source (checker.isIgnored source candidate).store := by
  have hexplain := keepsTo_explain h candidate
  unfold isIgnored
  simp only
  cases (checker.explain source candidate).value with
  | ok decision => exact hexplain
  | error error => exact hexplain

/-- The step of a run: no query makes the checker keep anything but the rules of the tree. -/
theorem keepsTo_answer (h : KeepsTo source checker.store) (query : Query) :
    KeepsTo source (checker.answer source query).store := by
  cases query with
  | isIgnored candidate => exact keepsTo_isIgnored h candidate
  | explain candidate => exact keepsTo_explain h candidate
  | resolve path => exact (h.judge checker.settings.metadataName path).2
  | rulesAt directory => exact h.rulesAt directory
  | locate | keptRules | linesAt | isDirectory => exact h
  | clear =>
    cases hstore : checker.store with
    | none => simpa [answer, clear, withStore, hstore] using keepsTo_none
    | some kept => simpa [answer, clear, withStore, hstore] using keepsTo_empty

theorem keepsTo_askAll (h : KeepsTo source checker.store) (queries : List Query) :
    KeepsTo source (checker.askAll source queries).store := by
  induction queries generalizing checker with
  | nil => exact h
  | cons query rest ih => exact ih (keepsTo_answer h query)

theorem settings_askAll (checker : Checker) (source : Source) (queries : List Query) :
    (checker.askAll source queries).settings = checker.settings := by
  induction queries generalizing checker with
  | nil => rfl
  | cons query rest ih => exact ih (checker.withStore _)

/-- A checker that was asked anything decides as one that keeps no rules. -/
theorem resolve_askAll_value (root : NativePath) (settings : Settings) (source : Source)
    (queries : List Query) (path : TreePath) :
    (((Checker.new root settings).askAll source queries).resolve source path).value =
      (judge source settings.metadataName path none).value := by
  rw [resolve, settings_askAll]
  exact ((keepsTo_askAll (keepsTo_new root settings source) queries).judge _ path).1

end Checker

end PathIgnore
