import PathIgnore.Proofs.Checker.Events
import PathIgnore.Proofs.Text.Quoted

/-!
# What is emitted

Those who follow what is reported see the name of an event and its fields as texts. Nothing of what
the event tells is lost in them: it is read back by the names of the fields (`read?_name_fields`).
So what is emitted about a path tells which rule files were read for it and what every visited
directory said, in the order in which it happened (`emitted_resolve`).
-/

namespace PathIgnore

/-- What an event tells, where a directory, a rule or an error is told by its text. -/
inductive Event.Content where
  | ruleRejected (glob reason : Text)
  | ruleCompiled (pattern : Text) (negated anchored directoryOnly : Bool)
  | ruleFileLoaded (directory : Text) (present : Bool) (count : Nat)
  | ruleFileUnreadable (directory error : Text)
  | directoryVisited (directory view : Text) (verdict : Verdict)
  | decided (path : Text) (ignored : Bool) (directory rule : Option Text)
  | candidateRefused (error : Text)
  deriving DecidableEq, Repr

namespace Event

/-- What the event tells. -/
def content : Event → Content
  | .ruleRejected source => .ruleRejected source rejection
  | .ruleCompiled rule =>
    .ruleCompiled rule.text rule.negated rule.anchored rule.directoryOnly
  | .ruleFileLoaded directory present count => .ruleFileLoaded directory.text present count
  | .ruleFileUnreadable directory error => .ruleFileUnreadable directory.text error.message
  | .directoryVisited directory view verdict => .directoryVisited directory.text view verdict
  | .decided path decision =>
    .decided path.text decision.isIgnored (decision.directory.map TreePath.text)
      (decision.rule.map Rule.display)
  | .candidateRefused error => .candidateRefused error.message

/-- The truth value that a word stands for. -/
def flag? (text : Text) : Option Bool :=
  if text = "true".toList then some true
  else if text = "false".toList then some false
  else none

theorem flag?_flagText (flag : Bool) : flag? (flagText flag) = some flag := by
  cases flag <;> rfl

/-! ## Reading fields -/

namespace Content

/-- Reads what an event tells from its name and from its fields, each found by its name. -/
def read? (name : String) (fields : List (String × Text)) : Option Content :=
  match name with
  | "rule_rejected" => do
    some (.ruleRejected (← fields.lookup "glob") (← fields.lookup "reason"))
  | "rule_compiled" => do
    some (.ruleCompiled (← fields.lookup "pattern") (← flag? (← fields.lookup "negated"))
      (← flag? (← fields.lookup "anchored")) (← flag? (← fields.lookup "directory_only")))
  | "rule_file_loaded" => do
    some (.ruleFileLoaded (← fields.lookup "directory") (← flag? (← fields.lookup "present"))
      (Nat.ofDigitChars 10 (← fields.lookup "rule_count") 0))
  | "rule_file_unreadable" => do
    some (.ruleFileUnreadable (← fields.lookup "directory") (← fields.lookup "error"))
  | "directory_visit" => do
    some (.directoryVisited (← fields.lookup "directory") (← fields.lookup "relative_path")
      (← Verdict.ofName? (String.ofList (← fields.lookup "verdict"))))
  | "ignore_decision" => do
    some (.decided (← fields.lookup "path") (← flag? (← fields.lookup "ignored"))
      (← Text.Quoted.decodeOption? (← fields.lookup "directory"))
      (← Text.Quoted.decodeOption? (← fields.lookup "rule")))
  | "invalid_candidate" => do
    some (.candidateRefused (← fields.lookup "error"))
  | _ => none

/-- The name and the fields of an event carry all that it tells. -/
theorem read?_name_fields (event : Event) :
    read? event.name event.fields = some event.content := by
  cases event <;>
    simp [read?, name, fields, content, List.lookup_cons, flag?_flagText, Verdict.ofName?_name,
      Text.Quoted.decodeOption?_encodeOption]

/-- The directory that was visited and what it said, if this tells of a visit. -/
def visit? : Content → Option (Text × Verdict)
  | .directoryVisited directory _ verdict => some (directory, verdict)
  | _ => none

/-- The directory whose rule file was read, if this tells of such a reading. -/
def asked? : Content → Option Text
  | .ruleFileLoaded directory _ _ | .ruleFileUnreadable directory _ => some directory
  | _ => none

end Content

/-- What is told by the names and the fields of events. -/
def told (events : List Event) : List Content :=
  events.filterMap fun event => Content.read? event.name event.fields

theorem told_eq_map (events : List Event) : told events = events.map content := by
  simp only [told, Content.read?_name_fields, List.filterMap_eq_map']

theorem told_append (first second : List Event) :
    told (first ++ second) = told first ++ told second :=
  List.filterMap_append

theorem told_cons (event : Event) (events : List Event) :
    told (event :: events) = event.content :: told events := by
  rw [told_eq_map, told_eq_map, List.map_cons]

end Event

open Event

/-! ## Visits and readings -/

variable {source : Source} {metadataName : Text} {path directory : TreePath}
  {asked : List TreePath} {visits : List (TreePath × Verdict)} {events : List Event}

/-- The rules of a file tell of no visit and of no reading. -/
theorem ReportsRules.told {lines : List RuleLine} (h : ReportsRules lines events) :
    (told events).filterMap Content.visit? = [] ∧ (told events).filterMap Content.asked? = [] := by
  induction h with
  | nil => exact ⟨rfl, rfl⟩
  | compiled _ _ ih => rwa [told_cons]
  | rejected _ _ ih => rwa [told_cons, told_cons]

/-- Reading a rule file tells of that reading only. -/
theorem ReportsReading.told (h : ReportsReading source directory events) :
    (told events).filterMap Content.visit? = [] ∧
      (told events).filterMap Content.asked? = [directory.text] := by
  cases h with
  | unreadable | absent => exact ⟨rfl, rfl⟩
  | present _ hrules =>
    obtain ⟨hvisit, hasked⟩ := hrules.told
    rw [told_append, List.filterMap_append, List.filterMap_append, hvisit, hasked]
    exact ⟨rfl, rfl⟩

/-- Visits tell what each visited directory said, and which of their rule files were read. -/
theorem ReportsVisits.told (h : ReportsVisits source metadataName path asked visits events) :
    (told events).filterMap Content.visit? = visits.map (fun visit => (visit.1.text, visit.2)) ∧
      (told events).filterMap Content.asked? =
        ((visits.map Prod.fst).filter (· ∈ asked)).map TreePath.text := by
  induction h with
  | nil => exact ⟨rfl, rfl⟩
  | @visit directory verdict view reading events rest hreading _ _ ih =>
    obtain ⟨hvisit, hasked⟩ := ih
    -- The visit tells of itself, and only what comes before it may tell of a reading.
    simp only [told_append, told_cons, List.filterMap_append, List.filterMap_cons, content,
      Content.visit?, Content.asked?, hvisit, hasked, List.map_cons]
    split at hreading
    · rename_i hmem
      obtain ⟨hnone, hsome⟩ := hreading.told
      rw [hnone, hsome, List.filter_cons_of_pos (by simpa using hmem)]
      exact ⟨rfl, rfl⟩
    · rename_i hmem
      rw [hreading, List.filter_cons_of_neg (by simpa using hmem)]
      exact ⟨rfl, rfl⟩

/-- Only visited directories are asked, in the order of the visits. -/
theorem filter_mem_asked_resolve (checker : Checker) (source : Source) (path : TreePath) :
    let log := (checker.resolve source path).log
    (log.visits.map Prod.fst).filter (· ∈ log.asked) = log.asked := by
  intro log
  have hasked : log.asked = (consulted checker.settings.metadataName path log.visits).filter
      (!isKept checker.store ·) := asked_judge_eq_filter source _ path checker.store
  rw [hasked, consulted, List.filter_filter]
  refine List.filter_congr fun directory hmem => ?_
  simp only [List.mem_filter, hmem, true_and, Bool.decide_eq_true]

/-- Those who follow what is emitted about a path learn what every visited directory said and which
rule files were read, in their order. -/
theorem emitted_resolve (checker : Checker) (source : Source) (path : TreePath) :
    let log := (checker.resolve source path).log
    (told log.events).filterMap Content.visit? =
        log.visits.map (fun visit => (visit.1.text, visit.2)) ∧
      (told log.events).filterMap Content.asked? = log.asked.map TreePath.text := by
  intro log
  obtain ⟨events, hevents, hvisits⟩ := reportsVisits_resolve checker source path
  obtain ⟨hvisit, hasked⟩ := hvisits.told
  rw [filter_mem_asked_resolve] at hasked
  rw [hevents, told_append, told_cons, List.filterMap_append, List.filterMap_append, hvisit, hasked]
  exact ⟨List.append_nil _, List.append_nil _⟩

end PathIgnore
