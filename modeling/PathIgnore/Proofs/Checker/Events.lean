import PathIgnore.Proofs.Checker.Visits

/-!
# What is reported about a path

Asking about a path reports every visit in its turn, before it the reading of the rule file if that
was read for it, and at the end the decision (`resolve_reports`). What these events are is said by
relations: how the rules of a file are reported (`ReportsRules`), how its reading is
(`ReportsReading`), and how the visits are (`ReportsVisits`).
-/

namespace PathIgnore

/-! ## Reports -/

/-- The events report the rules of a file in their order: each is compiled, and right before that
its pattern is rejected if it is too large to search for. -/
inductive ReportsRules : List RuleLine → List Event → Prop where
  | nil : ReportsRules [] []
  | compiled {line : RuleLine} {rest : List RuleLine} {events : List Event}
      (hfits : (Pattern.ofText line.source).fits = true) (h : ReportsRules rest events) :
      ReportsRules (line :: rest) (.ruleCompiled (.ofRuleLine line) :: events)
  | rejected {line : RuleLine} {rest : List RuleLine} {events : List Event}
      (hlarge : (Pattern.ofText line.source).fits = false) (h : ReportsRules rest events) :
      ReportsRules (line :: rest)
        (.ruleRejected line.source :: .ruleCompiled (.ofRuleLine line) :: events)

/-- The events report that the rule file of a directory was read. -/
inductive ReportsReading (source : Source) (directory : TreePath) : List Event → Prop where
  | unreadable {error : ReadError} (h : source.linesAt directory = .error error) :
      ReportsReading source directory [.ruleFileUnreadable directory error]
  | absent (h : source.linesAt directory = .ok none) :
      ReportsReading source directory [.ruleFileLoaded directory false 0]
  /-- The count is that of the rules that were reported. -/
  | present {lines : List Text} {events : List Event}
      (h : source.linesAt directory = .ok (some lines))
      (hrules : ReportsRules (RuleLine.parseAll lines) events) :
      ReportsReading source directory
        (events ++
          [.ruleFileLoaded directory true (events.countP (·.name == "rule_compiled"))])

/-- What a visit reports as seen of a path from a directory: nothing from a metadata directory and
from the path itself. -/
def IsReportedView (metadataName : Text) (path directory : TreePath) (view : Text) : Prop :=
  if directory.isMetadata metadataName ∨ directory = path then view = []
  else path.relativeTo? directory = some view

/-- The events report visits in their order: before a visit that its rule file was read, if the
directory was asked for it, and then what it said about the path. -/
inductive ReportsVisits (source : Source) (metadataName : Text) (path : TreePath)
    (asked : List TreePath) : List (TreePath × Verdict) → List Event → Prop where
  | nil : ReportsVisits source metadataName path asked [] []
  | visit {directory : TreePath} {verdict : Verdict} {view : Text} {reading events : List Event}
      {rest : List (TreePath × Verdict)}
      (hreading : if directory ∈ asked then ReportsReading source directory reading
        else reading = [])
      (hview : IsReportedView metadataName path directory view)
      (h : ReportsVisits source metadataName path asked rest events) :
      ReportsVisits source metadataName path asked ((directory, verdict) :: rest)
        (reading ++ .directoryVisited directory view verdict :: events)

variable {source : Source} {metadataName : Text} {path directory : TreePath}
  {asked : List TreePath} {visits : List (TreePath × Verdict)} {events : List Event}

/-! ## Reading rule files -/

theorem reportsRules_flatMap (lines : List RuleLine) :
    ReportsRules lines (lines.flatMap Event.ofRuleLine) := by
  induction lines with
  | nil => exact .nil
  | cons line rest ih =>
    rw [List.flatMap_cons, Event.ofRuleLine]
    cases hfits : (Pattern.ofText line.source).fits with
    | true => simpa [Rule.ofRuleLine, Rule.patternOf, hfits] using ReportsRules.compiled hfits ih
    | false => simpa [Rule.ofRuleLine, Rule.patternOf, hfits] using ReportsRules.rejected hfits ih

theorem ReportsRules.countP_name {lines : List RuleLine} (h : ReportsRules lines events) :
    events.countP (·.name == "rule_compiled") = lines.length := by
  induction h with
  | nil => rfl
  | compiled _ _ ih => rw [List.countP_cons_of_pos rfl, ih, List.length_cons]
  | rejected _ _ ih =>
    rw [List.countP_cons_of_neg (by simp [Event.name]), List.countP_cons_of_pos rfl, ih,
      List.length_cons]

theorem reportsReading_loadRules (source : Source) (directory : TreePath) :
    ReportsReading source directory (loadRules source directory).2.events := by
  unfold loadRules
  split
  · rename_i lines hlines
    have hrules := reportsRules_flatMap (RuleLine.parseAll lines)
    have hreading := ReportsReading.present hlines hrules
    rwa [hrules.countP_name] at hreading
  · rename_i hlines
    exact .absent hlines
  · rename_i error hlines
    exact .unreadable hlines

/-- A log of what comes before a visit of the directory: its rule file may be read and reported, and
no more. -/
structure IsReading (source : Source) (directory : TreePath) (log : Log) : Prop where
  asked : ∀ other ∈ log.asked, other = directory
  visits : log.visits = []
  events : if directory ∈ log.asked then ReportsReading source directory log.events
    else log.events = []

theorem isReading_empty (source : Source) (directory : TreePath) :
    IsReading source directory .empty where
  asked := by simp [Log.empty]
  visits := rfl
  events := by simp [Log.empty]

theorem isReading_rulesAt (source : Source) (directory : TreePath) (store : Option Store) :
    IsReading source directory (rulesAt source directory store).log := by
  rcases log_rulesAt source directory store with hlog | hlog
  · exact hlog ▸ isReading_empty source directory
  · refine ⟨fun other => eq_of_mem_asked_rulesAt, visits_rulesAt source directory store, ?_⟩
    rw [hlog, asked_loadRules, if_pos List.mem_cons_self]
    exact reportsReading_loadRules source directory

/-! ## Visits -/

/-- Only what was asked of the visited directories counts. -/
theorem ReportsVisits.of_asked_iff {other : List TreePath}
    (h : ReportsVisits source metadataName path asked visits events)
    (hsame : ∀ visited ∈ visits.map Prod.fst, (visited ∈ other ↔ visited ∈ asked)) :
    ReportsVisits source metadataName path other visits events := by
  induction h with
  | nil => exact .nil
  | visit hreading hview _ ih =>
    rw [List.map_cons, List.forall_mem_cons] at hsame
    obtain ⟨hfirst, hrest⟩ := hsame
    simp only [← hfirst] at hreading
    exact .visit hreading hview (ih hrest)

/-- The step: a directory is visited that is neither asked nor visited later. -/
theorem ReportsVisits.step {reading later : Log} {view : Text} {verdict : Verdict}
    (hreading : IsReading source directory reading)
    (hview : IsReportedView metadataName path directory view)
    (hasked : directory ∉ later.asked) (hvisits : directory ∉ later.visits.map Prod.fst)
    (h : ReportsVisits source metadataName path later.asked later.visits later.events) :
    let log := reading ++ .visited directory view verdict ++ later
    ReportsVisits source metadataName path log.asked log.visits log.events := by
  intro log
  have hlogAsked : log.asked = reading.asked ++ later.asked := by simp [log, Log.visited]
  have hlogVisits : log.visits = (directory, verdict) :: later.visits := by
    simp [log, Log.visited, hreading.visits]
  have hlogEvents : log.events =
      reading.events ++ .directoryVisited directory view verdict :: later.events := by
    simp [log, Log.visited]
  rw [hlogAsked, hlogVisits, hlogEvents]
  refine .visit ?_ hview (h.of_asked_iff fun visited hvisited => ?_)
  · have hevents := hreading.events
    simpa only [List.mem_append, hasked, or_false] using hevents
  · have hnot : visited ∉ reading.asked := by
      intro hmem
      obtain rfl := hreading.asked visited hmem
      exact hvisits hvisited
    rw [List.mem_append, or_iff_right hnot]

/-- The step that ends a climb. -/
theorem reportsVisits_last {reading : Log} {view : Text} {verdict : Verdict}
    (hreading : IsReading source directory reading)
    (hview : IsReportedView metadataName path directory view) :
    let log := reading ++ .visited directory view verdict
    ReportsVisits source metadataName path log.asked log.visits log.events := by
  have hdone : ReportsVisits source metadataName path Log.empty.asked Log.empty.visits
      Log.empty.events := .nil
  simpa only [Log.append_empty] using
    hdone.step hreading hview List.not_mem_nil List.not_mem_nil

theorem ReportsRules.name_ne {lines : List RuleLine} (h : ReportsRules lines events) :
    ∀ event ∈ events, event.name ≠ "ignore_decision" := by
  induction h with
  | nil => simp
  | compiled _ _ ih => simpa [Event.name] using ih
  | rejected _ _ ih => simpa [Event.name] using ih

theorem ReportsReading.name_ne (h : ReportsReading source directory events) :
    ∀ event ∈ events, event.name ≠ "ignore_decision" := by
  cases h with
  | unreadable | absent => simp [Event.name]
  | present _ hrules =>
    rw [List.forall_mem_append]
    exact ⟨hrules.name_ne, by simp [Event.name]⟩

/-- No visit reports a decision about the path. -/
theorem ReportsVisits.name_ne (h : ReportsVisits source metadataName path asked visits events) :
    ∀ event ∈ events, event.name ≠ "ignore_decision" := by
  induction h with
  | nil => simp
  | visit hreading _ _ ih =>
    rw [List.forall_mem_append, List.forall_mem_cons]
    refine ⟨?_, by simp [Event.name], ih⟩
    split at hreading
    · exact hreading.name_ne
    · simp [hreading]

/-! ## Climbing -/

/-- What an ancestor reports as seen from it. -/
theorem isReportedView_of_mem_lineage {isDirectory : Bool} {ancestor : Ancestor}
    (hmem : ancestor ∈ path.lineage isDirectory metadataName) :
    IsReportedView metadataName path ancestor.path
      (if ancestor.metadata then [] else ancestor.view) := by
  obtain ⟨hmetadata, -⟩ := isSeenFrom_of_mem_lineage hmem
  obtain ⟨hview, -⟩ := TreePath.relativeTo?_of_mem_lineage hmem
  unfold IsReportedView
  rw [← hmetadata]
  cases hm : ancestor.metadata with
  | true => simp
  | false =>
    simp only [Bool.false_eq_true, false_or, if_false]
    split
    · rename_i hself
      rw [hself, TreePath.relativeTo?_self] at hview
      exact (Option.some.inj hview).symm
    · exact hview

/-- The run: a climb reports what it visits, if no directory stands twice on its way. -/
theorem reportsVisits_climb {isDirectory : Bool} {ancestors : List Ancestor}
    (hnodup : (ancestors.map Ancestor.path).Nodup)
    (hviews : ∀ ancestor ∈ ancestors, IsReportedView metadataName path ancestor.path
      (if ancestor.metadata then [] else ancestor.view)) (store : Option Store) :
    let log := (climb source isDirectory ancestors store).log
    ReportsVisits source metadataName path log.asked log.visits log.events := by
  induction ancestors generalizing store with
  | nil => exact .nil
  | cons ancestor rest ih =>
    obtain ⟨hview, hviewsRest⟩ := List.forall_mem_cons.1 hviews
    obtain ⟨hnot, hnodupRest⟩ := List.nodup_cons.1 hnodup
    have hrest := ih hnodupRest hviewsRest
    -- The directory is not met again further up.
    have hasked : ∀ store,
        ancestor.path ∉ (climb source isDirectory rest store).log.asked := by
      intro store hmem
      obtain ⟨other, hother, heq, -⟩ := exists_of_mem_asked_climb hmem
      exact hnot (heq ▸ List.mem_map_of_mem hother)
    have hvisits : ∀ store,
        ancestor.path ∉ (climb source isDirectory rest store).log.visits.map Prod.fst :=
      fun store hmem => hnot ((ascent_climb _ _ _ store).visited_isPrefix.subset hmem)
    have hempty := isReading_empty source ancestor.path
    have hfound := isReading_rulesAt source ancestor.path store
    unfold climb
    cases hm : ancestor.metadata with
    | true =>
      rw [hm] at hview
      exact reportsVisits_last hempty hview
    | false =>
      rw [hm] at hview
      cases hv : ancestor.view.isEmpty with
      | true => exact (hrest store).step hempty hview (hasked store) (hvisits store)
      | false =>
        simp only [Bool.false_eq_true, if_false]
        cases (rulesAt source ancestor.path store).value.lastMatch? ancestor.view isDirectory with
        | some rule => exact reportsVisits_last hfound hview
        | none => exact (hrest _).step hfound hview (hasked _) (hvisits _)

/-- Asking about a path reports the visits, and after them the decision: nothing is read or visited
for it. -/
theorem reportsVisits_resolve (checker : Checker) (source : Source) (path : TreePath) :
    let outcome := checker.resolve source path
    ∃ events,
      outcome.log.events = events ++ [.decided path outcome.value] ∧
      ReportsVisits source checker.settings.metadataName path outcome.log.asked outcome.log.visits
        events := by
  intro outcome
  let isDirectory := source.countsAsDirectory path
  have hclimb := @reportsVisits_climb source checker.settings.metadataName path isDirectory _
    (path.nodup_lineage isDirectory _) (fun _ => isReportedView_of_mem_lineage) checker.store
  refine ⟨_, rfl, ?_⟩
  simp only [outcome, Checker.resolve, judge, Outcome.before, Log.reported, Log.asked_append,
    Log.visits_append, List.append_nil]
  exact hclimb

/-- Asking about a path reports for each visited directory, in the order of the lineage, first that
its rule file was read, if the source was asked for it, and then the visit, with what is seen of the
path from the directory and with what the directory said. At the end, and only there, it reports
the decision that it comes to. The visits lead up to that decision, and the source is asked for the
rule files that count for it and whose rules were not kept. -/
theorem resolve_reports (checker : Checker) (source : Source) (path : TreePath) :
    let metadataName := checker.settings.metadataName
    let lineage := path.lineage (source.countsAsDirectory path) metadataName
    let outcome := checker.resolve source path
    ∃ events,
      outcome.log.events = events ++ [.decided path outcome.value] ∧
      ReportsVisits source metadataName path outcome.log.asked outcome.log.visits events ∧
      (Ascent (lineage.map Ancestor.path) outcome.log.visits outcome.value ∧
        (outcome.log.visits.map Prod.fst).Nodup ∧
        outcome.log.asked =
          (consulted metadataName path outcome.log.visits).filter (!isKept checker.store ·)) ∧
      (∀ event ∈ events, event.name ≠ "ignore_decision") ∧
      ((Event.decided path outcome.value).name = "ignore_decision" ∧
        (Event.decided path outcome.value).fields =
          [("path", path.text), ("ignored", Event.flagText outcome.value.isIgnored),
            ("directory", Text.Quoted.encodeOption (outcome.value.directory.map TreePath.text)),
            ("rule", Text.Quoted.encodeOption (outcome.value.rule.map Rule.display))]) := by
  intro metadataName lineage outcome
  have hascent := ascent_judge source metadataName path checker.store
  have hasked := asked_judge_eq_filter source metadataName path checker.store
  have hnodup := path.nodup_lineage (source.countsAsDirectory path) metadataName
  obtain ⟨events, hevents, hvisits⟩ := reportsVisits_resolve checker source path
  exact ⟨events, hevents, hvisits,
    ⟨hascent, hnodup.sublist hascent.visited_isPrefix.sublist, hasked⟩, hvisits.name_ne, rfl, rfl⟩

/-- The rule file of `a` cannot be read, and the root has none. -/
example :
    let directory := TreePath.ofComponents [['a']]
    let path := TreePath.ofComponents [['a'], ['b']]
    let error : ReadError := ⟨.ofText "a/.gitignore".toList, .unreadable⟩
    let source : Source :=
      ⟨fun other => if other = directory then .error error else .ok none, fun _ => false⟩
    ((Checker.new ⟨[]⟩ ⟨".git".toList, false⟩).resolve source path).log.events =
      [.ruleFileUnreadable directory error, .directoryVisited directory ['b'] .noOpinion,
        .ruleFileLoaded .root false 0, .directoryVisited .root "a/b".toList .noOpinion,
        .decided path .undecided] := by
  decide

end PathIgnore
