import PathIgnore.Proofs.Checker.Climb

/-!
# The climb with a store

A checker that keeps rules climbs as one that keeps none would, on a tree whose rule files are those
that the store keeps and otherwise those of the tree itself (`climb_some`). Afterwards the store
also keeps the rules of every directory that was looked up and could be read (`KeepsAlso`).
-/

namespace PathIgnore

/-- The rules that the lines of a rule file hold. An absent rule file holds none. -/
def rulesOfLines : Option (List Text) → Rules
  | none => []
  | some lines => .ofLines lines

/-- The lines of a directory's rule file, present or absent, unless it cannot be read. -/
def Source.readLines? (source : Source) (directory : TreePath) : Option (Option (List Text)) :=
  (source.linesAt directory).toOption

/-- The store after the rules of some directories were looked up. Those that it kept stay. -/
def Store.KeepsAlso (source : Source) (before : Store) (directories : List TreePath)
    (after : Store) : Prop :=
  ∀ directory, after.get? directory =
    if directory ∈ directories then
      (before.get? directory).or ((source.readLines? directory).map rulesOfLines)
    else before.get? directory

/-- The rules that the store keeps for a directory, or else those of the tree. -/
def Store.rulesAt (store : Store) (source : Source) (directory : TreePath) : Rules :=
  (store.get? directory).getD (source.rulesAt directory)

theorem Source.rulesAt_eq (source : Source) (directory : TreePath) :
    source.rulesAt directory = ((source.readLines? directory).map rulesOfLines).getD [] := by
  unfold Source.rulesAt Source.readLines?
  cases source.linesAt directory with
  | error error => rfl
  | ok lines => cases lines <;> rfl

theorem loadRules_fst (source : Source) (directory : TreePath) :
    (loadRules source directory).1 = (source.readLines? directory).map rulesOfLines := by
  unfold loadRules Source.readLines?
  cases source.linesAt directory with
  | error error => rfl
  | ok lines => cases lines <;> rfl

theorem visits_loadRules (source : Source) (directory : TreePath) :
    (loadRules source directory).2.visits = [] := by
  unfold loadRules
  split <;> rfl

theorem visits_rulesAt (source : Source) (directory : TreePath) (store : Option Store) :
    (rulesAt source directory store).log.visits = [] := by
  rcases log_rulesAt source directory store with hlog | hlog
  · rw [hlog]
    rfl
  · rw [hlog, visits_loadRules]

namespace Store.KeepsAlso

variable {source : Source} {before between after : Store}

theorem refl (source : Source) (store : Store) : KeepsAlso source store [] store := by
  intro directory
  simp

theorem trans {first second : List TreePath} (h₁ : KeepsAlso source before first between)
    (h₂ : KeepsAlso source between second after) :
    KeepsAlso source before (first ++ second) after := by
  intro directory
  -- What is kept after the first look-ups is not read again by the second.
  rw [h₂ directory, h₁ directory]
  simp only [List.mem_append]
  cases Classical.em (directory ∈ first) with
  | inl hfirst =>
    cases Classical.em (directory ∈ second) with
    | inl hsecond => simp [hfirst, hsecond, Option.or_assoc]
    | inr hsecond => simp [hfirst, hsecond]
  | inr hfirst =>
    cases Classical.em (directory ∈ second) with
    | inl hsecond => simp [hfirst, hsecond]
    | inr hsecond => simp [hfirst, hsecond]

/-- Rules that are kept in addition are those that would be read again. -/
theorem rulesAt_eq {directories : List TreePath} (h : KeepsAlso source before directories after)
    (directory : TreePath) : after.rulesAt source directory = before.rulesAt source directory := by
  unfold Store.rulesAt
  rw [h directory, Source.rulesAt_eq]
  split
  · cases before.get? directory with
    | some rules => rfl
    | none =>
      rw [Option.none_or]
      cases (source.readLines? directory).map rulesOfLines <;> rfl
  · rfl

end Store.KeepsAlso

/-- Keeping the rules of one more directory that had none. -/
theorem Store.keepsAlso_singleton {source : Source} {before after : Store} {directory : TreePath}
    (hself : after.get? directory =
      (before.get? directory).or ((source.readLines? directory).map rulesOfLines))
    (hothers : ∀ other, other ≠ directory → after.get? other = before.get? other) :
    before.KeepsAlso source [directory] after := by
  intro other
  rcases eq_or_ne other directory with rfl | hne
  · rw [if_pos (List.mem_singleton_self other)]
    exact hself
  · rw [if_neg fun hmem => hne (List.mem_singleton.1 hmem)]
    exact hothers other hne

/-- The step of a climb: one look-up. -/
theorem rulesAt_some (source : Source) (directory : TreePath) (store : Store) :
    (rulesAt source directory (some store)).value = store.rulesAt source directory ∧
      ∃ after, (rulesAt source directory (some store)).store = some after ∧
        store.KeepsAlso source [directory] after := by
  have hload := loadRules_fst source directory
  refine ⟨?_, _, rfl, Store.keepsAlso_singleton ?_ ?_⟩
  · simp only [rulesAt, Store.rules_getOrLoad, Store.get?_getOrLoad_self, hload]
    rw [Store.rulesAt, Source.rulesAt_eq]
    cases store.get? directory <;> rfl
  · rw [Store.get?_getOrLoad_self, hload]
  · intro other hne
    exact store.get?_getOrLoad_of_ne directory _ hne

/-! ## Outcomes with a store -/

/-- An outcome with a store that says what `plain` says. The store keeps what it kept before, and
the rules of the directories that were looked up. -/
structure Outcome.Matches {α : Type} (cached plain : Outcome α) (source : Source) (before : Store)
    (directories : List TreePath) : Prop where
  value : cached.value = plain.value
  visits : cached.log.visits = plain.log.visits
  store : ∃ after, cached.store = some after ∧ before.KeepsAlso source directories after

namespace Outcome.Matches

variable {α β : Type} {cached plain : Outcome α} {source : Source} {store : Store}
  {directories : List TreePath}

theorem map (h : cached.Matches plain source store directories) (f : α → β) :
    (cached.map f).Matches (plain.map f) source store directories :=
  ⟨congrArg f h.value, h.visits, h.store⟩

theorem before (h : cached.Matches plain source store directories) {log log' : Log}
    (hlog : log.visits = log'.visits) :
    (cached.before log).Matches (plain.before log') source store directories := by
  refine ⟨h.value, ?_, h.store⟩
  simp only [Outcome.before, Log.visits_append, h.visits, hlog]

theorem after (h : cached.Matches plain source store directories) {log log' : Log}
    (hlog : log.visits = log'.visits) :
    (cached.after log).Matches (plain.after log') source store directories := by
  refine ⟨h.value, ?_, h.store⟩
  simp only [Outcome.after, Log.visits_append, h.visits, hlog]

/-- Nothing was looked up. -/
theorem same (value : α) (log : Log) (source : Source) (store : Store) :
    (⟨value, log, some store⟩ : Outcome α).Matches ⟨value, log, none⟩ source store [] :=
  ⟨rfl, rfl, store, rfl, .refl source store⟩

end Outcome.Matches

/-- The directories among those visited whose rules were looked up: not a metadata directory, and
not the path itself. -/
def consulted (metadataName : Text) (path : TreePath) (visits : List (TreePath × Verdict)) :
    List TreePath :=
  (visits.map (·.1)).filter fun directory =>
    !directory.isMetadata metadataName && !((path.relativeTo? directory).getD []).isEmpty

theorem consulted_append (metadataName : Text) (path : TreePath)
    (first second : List (TreePath × Verdict)) :
    consulted metadataName path (first ++ second) =
      consulted metadataName path first ++ consulted metadataName path second := by
  unfold consulted
  rw [List.map_append, List.filter_append]

/-- Whether what the ancestor says about itself is right for the lineage of the path. -/
def Ancestor.IsSeenFrom (metadataName : Text) (path : TreePath) (ancestor : Ancestor) : Prop :=
  ancestor.metadata = ancestor.path.isMetadata metadataName ∧
    ancestor.view = (path.relativeTo? ancestor.path).getD []

theorem isSeenFrom_of_mem_lineage {path : TreePath} {isDirectory : Bool} {metadataName : Text}
    {ancestor : Ancestor} (h : ancestor ∈ path.lineage isDirectory metadataName) :
    ancestor.IsSeenFrom metadataName path := by
  rw [TreePath.lineage_eq_map] at h
  obtain ⟨directory, -, rfl⟩ := List.mem_map.1 h
  exact ⟨rfl, rfl⟩

theorem consulted_singleton {metadataName : Text} {path : TreePath} {ancestor : Ancestor}
    (h : ancestor.IsSeenFrom metadataName path) (verdict : Verdict) :
    consulted metadataName path [(ancestor.path, verdict)] =
      if ancestor.metadata || ancestor.view.isEmpty then [] else [ancestor.path] := by
  obtain ⟨hmetadata, hview⟩ := h
  unfold consulted
  rw [List.map_singleton, List.filter_cons, ← hmetadata, ← hview]
  cases ancestor.metadata <;> cases ancestor.view.isEmpty <;> rfl

variable {source kept : Source} {metadataName : Text} {path : TreePath}

/-- A look-up, said as an outcome: the rules are those of a tree with the kept rule files. -/
theorem rulesAt_matches {store : Store}
    (hkept : ∀ directory, kept.rulesAt directory = store.rulesAt source directory)
    (directory : TreePath) :
    (rulesAt source directory (some store)).Matches (rulesAt kept directory none) source store
      [directory] := by
  obtain ⟨hrules, hstore⟩ := rulesAt_some source directory store
  refine ⟨?_, ?_, hstore⟩
  · rw [hrules, rulesAt_none_value, hkept]
  · rw [visits_rulesAt, visits_rulesAt]

theorem climb_some {isDirectory : Bool} {ancestors : List Ancestor} {store : Store}
    (hkept : ∀ directory, kept.rulesAt directory = store.rulesAt source directory)
    (hancestors : ∀ ancestor ∈ ancestors, ancestor.IsSeenFrom metadataName path) :
    (climb source isDirectory ancestors (some store)).Matches
      (climb kept isDirectory ancestors none) source store
      (consulted metadataName path (climb kept isDirectory ancestors none).log.visits) := by
  induction ancestors generalizing store with
  | nil => exact .same _ _ source store
  | cons ancestor rest ih =>
    have hself := consulted_singleton (hancestors ancestor (by simp))
    have hrest := fun other hmem => hancestors other (List.mem_cons_of_mem ancestor hmem)
    unfold climb
    cases hm : ancestor.metadata with
    | true =>
      rw [if_pos rfl, if_pos rfl]
      simp only [Log.visited, hself, hm, Bool.true_or, if_true]
      exact .same _ _ source store
    | false =>
      rw [if_neg Bool.false_ne_true, if_neg Bool.false_ne_true]
      cases hv : ancestor.view.isEmpty with
      | true =>
        rw [if_pos rfl, if_pos rfl]
        simp only [Outcome.after, Log.visits_append, Log.visited, consulted_append, hself, hm, hv,
          Bool.or_true, if_true, List.nil_append]
        exact (ih hkept hrest).after rfl
      | false =>
        rw [if_neg Bool.false_ne_true, if_neg Bool.false_ne_true]
        have hfound := rulesAt_matches hkept ancestor.path
        obtain ⟨between, hbetween, hkeeps⟩ := hfound.store
        simp only [hfound.value]
        cases (rulesAt kept ancestor.path none).value.lastMatch? ancestor.view isDirectory with
        | some rule =>
          refine ⟨rfl, ?_, between, hbetween, ?_⟩
          · simp only [Log.visits_append, hfound.visits]
          · simp only [Log.visits_append, visits_rulesAt, Log.visited, List.nil_append, hself,
              hm, hv, Bool.or_self, Bool.false_eq_true, if_false]
            exact hkeeps
        | none =>
          -- What the look-up has added to the store is what the tree says, so the climb goes on
          -- as if nothing had been added.
          have hkept' : ∀ directory,
              kept.rulesAt directory = between.rulesAt source directory := by
            intro directory
            rw [hkept, hkeeps.rulesAt_eq]
          have hclimb := ih hkept' hrest
          obtain ⟨after, hafter, hkeepsAfter⟩ := hclimb.store
          simp only [hbetween, rulesAt_none_store]
          refine ⟨hclimb.value, ?_, after, hafter, ?_⟩
          · simp only [Outcome.after, Log.visits_append, hfound.visits, hclimb.visits]
          · simp only [Outcome.after, Log.visits_append, visits_rulesAt, Log.visited,
              List.nil_append, consulted_append, hself, hm, hv, Bool.or_self, Bool.false_eq_true,
              if_false]
            exact hkeeps.trans hkeepsAfter

/-- Deciding about a path with a store. -/
theorem judge_some {store : Store} (metadataName : Text) (path : TreePath)
    (hkept : ∀ directory, kept.rulesAt directory = store.rulesAt source directory)
    (hisDirectory : kept.isDirectory = source.isDirectory) :
    (judge source metadataName path (some store)).Matches (judge kept metadataName path none)
      source store
      (consulted metadataName path (judge kept metadataName path none).log.visits) := by
  unfold judge
  simp only [Outcome.before, Log.visits_append, Log.reported, List.append_nil, hisDirectory]
  exact (climb_some hkept fun _ => isSeenFrom_of_mem_lineage).before rfl

/-- A checker that has not been asked anything yet decides alike, whether it is going to keep rules
or not. -/
theorem resolve_new_value (root : NativePath) (settings : Settings) (source : Source)
    (path : TreePath) :
    ((Checker.new root settings).resolve source path).value =
      (judge source settings.metadataName path none).value := by
  unfold Checker.resolve Checker.new
  cases settings.keepRules with
  | false => rfl
  | true =>
    have hkept : ∀ directory, source.rulesAt directory = Store.empty.rulesAt source directory := by
      intro directory
      rw [Store.rulesAt, Store.get?_empty, Option.getD_none]
    exact (judge_some settings.metadataName path hkept rfl).value

end PathIgnore
