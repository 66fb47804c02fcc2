import PathIgnore.Proofs.Checker.Exactness
import PathIgnore.Proofs.Checker.LookUps
import PathIgnore.Proofs.TreePath.WayUp

/-!
# What a climb visits

A climb visits the directories of a lineage in their order, and only the last visit may say
something (`Ascent`). Together with what is read and kept for it, this is all that asking about a
path does (`resolve_visits_reads_and_keeps`).
-/

namespace PathIgnore

/-- The visits of a climb along some directories, and the decision that it comes to. -/
inductive Ascent : List TreePath → List (TreePath × Verdict) → Decision → Prop where
  /-- No directory is left. -/
  | undecided : Ascent [] [] .undecided
  /-- The next directory decides, and those after it are not visited. -/
  | decided {directory : TreePath} {rest : List TreePath} {decision : Decision}
      (hdirectory : decision.directory = some directory)
      (hdecisive : decision.verdict.isDecisive = true) :
      Ascent (directory :: rest) [(directory, decision.verdict)] decision
  /-- The next directory has no opinion. -/
  | past {directory : TreePath} {rest : List TreePath} {visits : List (TreePath × Verdict)}
      {decision : Decision} (h : Ascent rest visits decision) :
      Ascent (directory :: rest) ((directory, .noOpinion) :: visits) decision

namespace Ascent

variable {directories : List TreePath} {visits : List (TreePath × Verdict)} {decision : Decision}

theorem visited_isPrefix (h : Ascent directories visits decision) :
    visits.map Prod.fst <+: directories := by
  induction h with
  | undecided => exact List.nil_prefix
  | decided => exact List.cons_prefix_cons.2 ⟨rfl, List.nil_prefix⟩
  | past _ ih => exact List.cons_prefix_cons.2 ⟨rfl, ih⟩

theorem visits_ne_nil (h : Ascent directories visits decision) (hne : directories ≠ []) :
    visits ≠ [] := by
  cases h with
  | undecided => exact absurd rfl hne
  | decided | past => exact List.cons_ne_nil _ _

theorem eq_noOpinion_of_mem_dropLast (h : Ascent directories visits decision) :
    ∀ visit ∈ visits.dropLast, visit.2 = .noOpinion := by
  induction h with
  | undecided | decided => simp
  | @past _ _ visits _ _ ih =>
    intro visit hvisit
    cases visits with
    | nil => cases hvisit
    | cons =>
      rw [List.dropLast_cons_cons, List.mem_cons] at hvisit
      rcases hvisit with rfl | hvisit
      · rfl
      · exact ih visit hvisit

/-- If there is a decision, it is what was said last. -/
theorem getLast?_visits (h : Ascent directories visits decision)
    (hdecisive : decision.verdict.isDecisive = true) :
    ∃ directory, decision.directory = some directory ∧
      visits.getLast? = some (directory, decision.verdict) := by
  induction h with
  | undecided => cases hdecisive
  | decided hdirectory => exact ⟨_, hdirectory, rfl⟩
  | past _ ih =>
    obtain ⟨directory, hdirectory, hlast⟩ := ih hdecisive
    refine ⟨directory, hdirectory, ?_⟩
    rw [List.getLast?_cons, hlast, Option.getD_some]

/-- Without a decision, all directories were visited. -/
theorem visits_of_not_isDecisive (h : Ascent directories visits decision)
    (hopen : decision.verdict.isDecisive = false) : visits = directories.map (·, .noOpinion) := by
  induction h with
  | undecided => rfl
  | decided _ hdecisive => simp [hdecisive] at hopen
  | past _ ih => rw [ih hopen, List.map_cons]

end Ascent

/-! ## Climbing -/

theorem isDecisive_verdict_byRule (directory : TreePath) (rule : Rule) :
    (Decision.byRule directory rule).verdict.isDecisive = true :=
  rule.isDecisive_verdict

theorem ascent_climb (source : Source) (isDirectory : Bool) (ancestors : List Ancestor)
    (store : Option Store) :
    Ascent (ancestors.map Ancestor.path) (climb source isDirectory ancestors store).log.visits
      (climb source isDirectory ancestors store).value := by
  induction ancestors generalizing store with
  | nil => exact .undecided
  | cons ancestor rest ih =>
    unfold climb
    split
    · exact @Ascent.decided _ _ (.byMetadata ancestor.path) rfl rfl
    split
    · exact .past (ih store)
    · simp only
      split
      · simp only [Log.visits_append, visits_rulesAt, List.nil_append]
        exact .decided rfl (isDecisive_verdict_byRule _ _)
      · simp only [Outcome.after, Log.visits_append, visits_rulesAt, List.nil_append]
        exact .past (ih _)

/-- A metadata directory decides about all that lies in it, and nothing is read for that. -/
theorem climb_cons_of_metadata (source : Source) (isDirectory : Bool) {ancestor : Ancestor}
    (h : ancestor.metadata = true) (rest : List Ancestor) (store : Option Store) :
    climb source isDirectory (ancestor :: rest) store =
      ⟨.byMetadata ancestor.path, .visited ancestor.path [] .ignored, store⟩ := by
  rw [climb, if_pos h]

/-! ## Deciding about a path -/

section

variable {source : Source} {metadataName : Text} {path : TreePath}

theorem ascent_judge (source : Source) (metadataName : Text) (path : TreePath)
    (store : Option Store) :
    Ascent ((path.lineage (source.countsAsDirectory path) metadataName).map Ancestor.path)
      (judge source metadataName path store).log.visits
      (judge source metadataName path store).value := by
  unfold judge
  simp only [Outcome.before, Log.visits_append, Log.reported, List.append_nil]
  exact ascent_climb _ _ _ _

/-- The consulted directories are those visited that are no metadata directories and not the path
itself. -/
theorem consulted_eq_filter (h : path.IsNormal) {isDirectory : Bool}
    {visits : List (TreePath × Verdict)}
    (hvisited : visits.map Prod.fst <+: (path.lineage isDirectory metadataName).map Ancestor.path) :
    consulted metadataName path visits =
      (visits.map Prod.fst).filter fun directory =>
        !directory.isMetadata metadataName && directory != path := by
  apply List.filter_congr
  intro directory hmem
  obtain ⟨k, hk, rfl⟩ := h.mem_lineage (hvisited.subset hmem)
  rw [h.relativeTo?_isEmpty hk]
  rfl

/-- No directory is consulted twice, so those are asked whose rules were not kept at the start. -/
theorem asked_judge_eq_filter (source : Source) (metadataName : Text) (path : TreePath)
    (store : Option Store) :
    let log := (judge source metadataName path store).log
    log.asked = (consulted metadataName path log.visits).filter (!isKept store ·) := by
  intro log
  have hvisited := (ascent_judge source metadataName path store).visited_isPrefix
  have hnodup : (consulted metadataName path log.visits).Nodup :=
    ((path.nodup_lineage _ _).sublist hvisited.sublist).filter _
  rw [(looksUp_judge source metadataName path store).asked, asked_lookUpAll_of_nodup hnodup]

theorem asked_judge (h : path.IsNormal) (store : Option Store) :
    let log := (judge source metadataName path store).log
    log.asked = ((log.visits.map Prod.fst).filter fun directory =>
      !directory.isMetadata metadataName && directory != path && !isKept store directory) := by
  intro log
  have hvisited := (ascent_judge source metadataName path store).visited_isPrefix
  rw [asked_judge_eq_filter, consulted_eq_filter h hvisited, List.filter_filter]
  apply List.filter_congr
  intro directory _
  rw [Bool.and_comm]

theorem judge_of_metadata {first : Ancestor}
    (hfirst : first ∈ (path.lineage (source.countsAsDirectory path) metadataName).head?)
    (hmetadata : first.metadata = true) (store : Option Store) :
    (judge source metadataName path store).log.visits = [(first.path, .ignored)] ∧
      (judge source metadataName path store).log.asked = [] := by
  obtain ⟨rest, hlineage⟩ := List.head?_eq_some_iff.1 hfirst
  unfold Source.countsAsDirectory at hlineage
  simp only [judge, hlineage, climb_cons_of_metadata source _ hmetadata]
  exact ⟨rfl, rfl⟩

/-- The store afterwards keeps what it kept, and what could be read. -/
theorem store_judge_some (store : Store) :
    ∃ after, (judge source metadataName path (some store)).store = some after ∧
      ∀ directory, after.get? directory = (store.get? directory).or
        (if directory ∈ (judge source metadataName path (some store)).log.asked then
          (source.readLines? directory).map rulesOfLines else none) := by
  obtain ⟨hasked, hstore⟩ := looksUp_judge source metadataName path (some store)
  obtain ⟨after, hafter, hkeeps⟩ := store_lookUpAll_some
    (consulted metadataName path (judge source metadataName path (some store)).log.visits) store
  refine ⟨after, hstore.trans hafter, ?_⟩
  intro directory
  rw [hkeeps directory, hasked]
  simp only [mem_asked_lookUpAll, isKept, Option.bind_some]
  cases hkept : store.get? directory with
  | some rules => simp
  | none => split <;> simp [*]

end

/-- Asking about a path visits the first directories of its lineage, of which only the last may have
an opinion: the one that decides if there is a decision, and the root otherwise. Of those visited,
the rule files are read that count for the path and are not kept, and what could be read is kept in
addition to what was kept before. -/
theorem resolve_visits_reads_and_keeps (checker : Checker) (source : Source) {path : TreePath}
    (hpath : path.IsNormal) :
    let lineage := path.lineage (source.countsAsDirectory path) checker.settings.metadataName
    let outcome := checker.resolve source path
    let visited := outcome.log.visits.map Prod.fst
    (visited ≠ [] ∧ visited <+: lineage.map Ancestor.path ∧
      ∀ visit ∈ outcome.log.visits.dropLast, visit.2 = .noOpinion) ∧
    ((outcome.value.verdict.isDecisive = true →
        ∃ directory, outcome.value.directory = some directory ∧
          outcome.log.visits.getLast? = some (directory, outcome.value.verdict)) ∧
      (outcome.value.verdict.isDecisive = false →
        outcome.log.visits = lineage.map fun ancestor => (ancestor.path, .noOpinion))) ∧
    (outcome.log.asked = (visited.filter fun directory =>
        !directory.isMetadata checker.settings.metadataName && directory != path &&
          !isKept checker.store directory) ∧
      outcome.log.asked.Nodup ∧
      ∀ first ∈ lineage.head?, first.metadata = true →
        outcome.log.visits.length = 1 ∧ outcome.log.asked = []) ∧
    match checker.store with
    | none => outcome.store = none
    | some before => ∃ after, outcome.store = some after ∧
        ∀ directory, after.get? directory = (before.get? directory).or
          (if directory ∈ outcome.log.asked then
            (source.readLines? directory).map rulesOfLines else none) := by
  intro lineage outcome visited
  have hascent := ascent_judge source checker.settings.metadataName path checker.store
  have hlineage : lineage.map Ancestor.path ≠ [] := by
    simp [lineage, hpath.lineage_eq]
  have hasked := @asked_judge source checker.settings.metadataName path hpath checker.store
  refine ⟨⟨?_, hascent.visited_isPrefix, hascent.eq_noOpinion_of_mem_dropLast⟩,
    ⟨hascent.getLast?_visits, ?_⟩, ⟨hasked, ?_, ?_⟩, ?_⟩
  · exact fun hnil => hascent.visits_ne_nil hlineage (List.map_eq_nil_iff.1 hnil)
  · intro hopen
    have hvisits := hascent.visits_of_not_isDecisive hopen
    rwa [List.map_map] at hvisits
  · have hnodup := path.nodup_lineage (source.countsAsDirectory path) checker.settings.metadataName
    exact hasked ▸ (hnodup.sublist hascent.visited_isPrefix.sublist).filter _
  · intro first hfirst hmetadata
    obtain ⟨hvisits, hnone⟩ := judge_of_metadata hfirst hmetadata checker.store
    exact ⟨congrArg List.length hvisits, hnone⟩
  · simp only [outcome, Checker.resolve]
    cases checker.store with
    | none =>
      rw [(looksUp_judge source checker.settings.metadataName path none).store,
        store_lookUpAll_none]
    | some before => exact store_judge_some before

/-- The path `f/h/k` is kept by the rule file of `f`: that of the root is not read, and that of the
absent directory `f/h` is read before. -/
theorem resolve_keepingSource_visits :
    let path := TreePath.ofComponents [['f'], ['h'], ['k']]
    let outcome := (Checker.new ⟨[]⟩ .standard).resolve keepingSource path
    let visited := [TreePath.ofComponents [['f'], ['h']], .ofComponents [['f']]]
    path.IsNormal ∧ outcome.log.visits.map Prod.fst = visited ∧ outcome.log.asked = visited := by
  intro path outcome visited
  have hnormal : path.IsNormal := by decide
  have hvalue : outcome.value =
      .byRule (.ofComponents [['f']]) ⟨['k'], true, false, false, some [.literal 'k']⟩ := by
    have hcovers : Rule.covers ⟨['k'], true, false, false, some [.literal 'k']⟩
        (path.viewFrom 1) (keepingSource.countsAsDirectory path) = true := by
      rw [Rule.covers_eq_any rfl]
      decide
    rw [resolve_new_value]
    exact judge_value_of_decisionAt hnormal (by decide) (by decide)
      (decisionAt_of_singleton (by decide) hcovers) (by decide)
  obtain ⟨⟨-, hprefix, -⟩, ⟨hlast, -⟩, ⟨hasked, -, -⟩, -⟩ :=
    resolve_visits_reads_and_keeps (Checker.new ⟨[]⟩ .standard) keepingSource hnormal
  have hlineage : (path.lineage (keepingSource.countsAsDirectory path) ".git".toList).map
      Ancestor.path = visited ++ [.root] := by decide
  have hvisited : outcome.log.visits.map Prod.fst = visited := by
    -- The visited directories are the first of the lineage, and `f` is the last of them.
    obtain ⟨directory, hdirectory, hvisit⟩ := hlast (by rw [hvalue]; rfl)
    rw [hvalue] at hdirectory
    obtain rfl := Option.some.inj hdirectory
    have hlastVisited : (outcome.log.visits.map Prod.fst).getLast? =
        some (.ofComponents [['f']]) := by
      rw [List.getLast?_map]
      exact congrArg (Option.map Prod.fst) hvisit
    have htake := List.prefix_iff_eq_take.1 (hlineage ▸ hprefix)
    rw [htake] at hlastVisited ⊢
    revert hlastVisited
    generalize (outcome.log.visits.map Prod.fst).length = n
    match n with
    | 0 | 1 | 2 => decide
    | n + 3 =>
      rw [List.take_of_length_le (by simp [visited])]
      decide
  have hnone : ∀ directory, isKept (some .empty) directory = false := by
    intro directory
    simp [isKept]
  refine ⟨hnormal, hvisited, hasked.trans ?_⟩
  rw [hvisited, List.filter_eq_self]
  intro directory hmem
  simp only [Checker.new, Settings.standard, if_true, hnone]
  revert directory
  decide

end PathIgnore
