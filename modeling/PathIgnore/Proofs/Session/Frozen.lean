import PathIgnore.Session
import PathIgnore.Proofs.Checker.KeptRules

/-!
# Frozen rules

Rules that a checker keeps are those of the tree as it stood at their first look-up. A session with
such a checker answers as a checker that keeps nothing would, asked about the tree of now with the
frozen rule files put in the place of those of now.
-/

namespace PathIgnore

/-! ## What was looked up -/

/-- A look-up of the rules of a directory, and the tree as it stood then. -/
structure LookUp where
  tree : MemoryTree
  directory : TreePath

/-- The tree as it stands, and the look-ups since the last time everything was dropped, the first
look-up first. -/
structure History where
  tree : MemoryTree
  lookUps : List LookUp

/-- Whether the answer to a query may depend on rules that are loaded for it. -/
def Query.consultsRules : Query → Bool
  | .isIgnored _ | .explain _ | .resolve _ | .rulesAt _ => true
  | .locate _ | .keptRules _ | .linesAt _ | .isDirectory _ | .clear => false

namespace Checker

/-- The directories whose rules are looked up to decide about a place in the tree. -/
def consulted (checker : Checker) (source : Source) (path : TreePath) : List TreePath :=
  PathIgnore.consulted checker.settings.metadataName path
    (checker.resolve source path).log.visits

/-- The directories whose rules are looked up for a query. -/
def lookedUp (checker : Checker) (source : Source) : Query → List TreePath
  | .isIgnored candidate | .explain candidate =>
    match checker.locate candidate with
    | .ok path => checker.consulted source path
    | .error _ => []
  | .resolve path => checker.consulted source path
  | .rulesAt directory => [directory]
  | .locate _ | .keptRules _ | .linesAt _ | .isDirectory _ | .clear => []

end Checker

namespace History

/-- The lines of a rule file that could be read, or its absence, at the first look-up at which it
could be read. -/
def frozen? (history : History) (directory : TreePath) : Option (Option (List Text)) :=
  history.lookUps.findSome? fun lookUp =>
    if lookUp.directory = directory then lookUp.tree.source.readLines? directory else none

/-- The tree of now, with the frozen rule files in the place of those of now. -/
def source (history : History) : Source where
  linesAt directory :=
    match history.frozen? directory with
    | some lines => .ok lines
    | none => history.tree.source.linesAt directory
  isDirectory := history.tree.source.isDirectory

/-- The history after some directories were looked up. -/
def look (history : History) (directories : List TreePath) : History :=
  { history with lookUps := history.lookUps ++ directories.map (LookUp.mk history.tree) }

/-- The history after a step. What a query looks up is said by a checker that keeps nothing. -/
def step (plain : Checker) (history : History) : Session.MemoryStep → History
  | .change change =>
    match history.tree.apply change with
    | .ok tree => { history with tree := tree }
    | .error _ => history
  | .query .clear => { history with lookUps := [] }
  | .query query => history.look (plain.lookedUp history.source query)
  | .isFile _ => history

/-- The history after a run. -/
def run (plain : Checker) (history : History) (steps : List Session.MemoryStep) : History :=
  steps.foldl (step plain) history

theorem step_of_consultsRules {plain : Checker} {history : History} {query : Query}
    (h : query.consultsRules) :
    history.step plain (.query query) = history.look (plain.lookedUp history.source query) := by
  cases query <;> first | rfl | cases h

theorem readLines?_source (history : History) (directory : TreePath) :
    history.source.readLines? directory =
      (history.frozen? directory).or (history.tree.source.readLines? directory) := by
  simp only [Source.readLines?, source]
  cases history.frozen? directory <;> rfl

/-- A look-up freezes what it reads, unless the directory was frozen before. -/
theorem frozen?_look (history : History) (directories : List TreePath) (directory : TreePath) :
    (history.look directories).frozen? directory =
      if directory ∈ directories then
        (history.frozen? directory).or (history.tree.source.readLines? directory)
      else history.frozen? directory := by
  unfold frozen? look
  rw [List.findSome?_append]
  have hnew : (directories.map (LookUp.mk history.tree)).findSome?
      (fun lookUp => if lookUp.directory = directory then
        lookUp.tree.source.readLines? directory else none) =
      if directory ∈ directories then history.tree.source.readLines? directory else none := by
    induction directories with
    | nil => rfl
    | cons next rest ih =>
      rw [List.map_cons, List.findSome?_cons, ih]
      rcases eq_or_ne next directory with rfl | hne
      · rw [if_pos rfl, if_pos List.mem_cons_self]
        cases history.tree.source.readLines? next with
        | some lines => rfl
        | none => exact ite_self none
      · simp only [if_neg hne, List.mem_cons, hne.symm, false_or]
  rw [hnew]
  cases Classical.em (directory ∈ directories) with
  | inl hmem => rw [if_pos hmem, if_pos hmem]
  | inr hmem => rw [if_neg hmem, if_neg hmem, Option.or_none]

end History

/-! ## The invariant -/

/-- A store keeps exactly the frozen directories, each with the rules of its frozen lines. -/
def Store.IsFrozen (store : Store) (history : History) : Prop :=
  ∀ directory, store.get? directory = (history.frozen? directory).map rulesOfLines

theorem Store.IsFrozen.rulesAt_eq {store : Store} {history : History}
    (h : store.IsFrozen history) (directory : TreePath) :
    history.source.rulesAt directory = store.rulesAt history.tree.source directory := by
  unfold Store.rulesAt
  rw [h directory, Source.rulesAt_eq, Source.rulesAt_eq, History.readLines?_source]
  cases history.frozen? directory <;> rfl

theorem Store.IsFrozen.look {before after : Store} {history : History}
    {directories : List TreePath} (h : before.IsFrozen history)
    (hkeeps : before.KeepsAlso history.tree.source directories after) :
    after.IsFrozen (history.look directories) := by
  intro directory
  rw [hkeeps directory, h directory, History.frozen?_look]
  split
  · rw [Option.map_or]
  · rfl

variable {root : NativePath} {metadataName : Text}

section

variable {source kept : Source} {store : Store}

theorem Checker.resolve_matches
    (hkept : ∀ directory, kept.rulesAt directory = store.rulesAt source directory)
    (hisDirectory : kept.isDirectory = source.isDirectory) (path : TreePath) :
    (resolve ⟨root, ⟨metadataName, true⟩, some store⟩ source path).Matches
      ((Checker.new root ⟨metadataName, false⟩).resolve kept path) source store
      ((Checker.new root ⟨metadataName, false⟩).consulted kept path) :=
  judge_some metadataName path hkept hisDirectory

theorem Checker.explain_matches
    (hkept : ∀ directory, kept.rulesAt directory = store.rulesAt source directory)
    (hisDirectory : kept.isDirectory = source.isDirectory) (candidate : NativePath) :
    (explain ⟨root, ⟨metadataName, true⟩, some store⟩ source candidate).Matches
      ((Checker.new root ⟨metadataName, false⟩).explain kept candidate) source store
      ((Checker.new root ⟨metadataName, false⟩).lookedUp kept (.explain candidate)) := by
  -- Where the candidate lies depends on the root alone.
  have hlocate : locate ⟨root, ⟨metadataName, true⟩, some store⟩ candidate =
      (Checker.new root ⟨metadataName, false⟩).locate candidate := rfl
  simp only [explain, lookedUp, hlocate]
  cases (Checker.new root ⟨metadataName, false⟩).locate candidate with
  | ok path => exact (resolve_matches hkept hisDirectory path).map Except.ok
  | error error => exact .same _ _ source store

/-- A checker with a store answers as one without, on a tree with the kept rule files. -/
theorem Checker.answer_matches
    (hkept : ∀ directory, kept.rulesAt directory = store.rulesAt source directory)
    (hisDirectory : kept.isDirectory = source.isDirectory) {query : Query}
    (hquery : query.consultsRules) :
    (answer ⟨root, ⟨metadataName, true⟩, some store⟩ source query).Matches
      ((Checker.new root ⟨metadataName, false⟩).answer kept query) source store
      ((Checker.new root ⟨metadataName, false⟩).lookedUp kept query) := by
  cases query with
  | isIgnored candidate =>
    have hexplain := @explain_matches root metadataName _ _ _ hkept hisDirectory candidate
    unfold answer isIgnored
    simp only [hexplain.value]
    cases ((Checker.new root ⟨metadataName, false⟩).explain kept candidate).value with
    | ok decision => exact (hexplain.map _).map _
    | error error => exact ((hexplain.map _).before rfl).map _
  | explain candidate =>
    unfold answer
    exact (explain_matches hkept hisDirectory candidate).map _
  | resolve path => exact (resolve_matches hkept hisDirectory path).map Answer.decision
  | rulesAt directory =>
    unfold answer
    exact (rulesAt_matches hkept directory).map _
  | locate | keptRules | linesAt | isDirectory | clear => cases hquery

end

/-- A session of a checker that keeps rules agrees with a history. -/
structure Session.Agrees (session : Session MemoryTree) (root : NativePath) (metadataName : Text)
    (history : History) : Prop where
  tree : session.tree = history.tree
  checker : ∃ store, session.checker = ⟨root, ⟨metadataName, true⟩, some store⟩ ∧
    store.IsFrozen history

namespace Session.Agrees

variable {session : Session MemoryTree} {history : History}

theorem start (root : NativePath) (metadataName : Text) (tree : MemoryTree) :
    Agrees ⟨tree, Checker.new root ⟨metadataName, true⟩⟩ root metadataName ⟨tree, []⟩ := by
  refine ⟨rfl, .empty, rfl, ?_⟩
  intro directory
  exact Store.get?_empty directory

theorem answer (h : session.Agrees root metadataName history) {query : Query}
    (hquery : query.consultsRules) :
    ∃ before, session.checker = ⟨root, ⟨metadataName, true⟩, some before⟩ ∧
      before.IsFrozen history ∧
      (session.checker.answer session.tree.source query).Matches
        ((Checker.new root ⟨metadataName, false⟩).answer history.source query)
        history.tree.source before
        ((Checker.new root ⟨metadataName, false⟩).lookedUp history.source query) := by
  obtain ⟨store, hchecker, hfrozen⟩ := h.checker
  refine ⟨store, hchecker, hfrozen, ?_⟩
  rw [hchecker, h.tree]
  exact Checker.answer_matches hfrozen.rulesAt_eq rfl hquery

/-- The step of a run: what a step adds to the history is what it adds to the store. -/
theorem step (h : session.Agrees root metadataName history) (step : MemoryStep) :
    (session.stepInMemory step).2.2.Agrees root metadataName
      (history.step (.new root ⟨metadataName, false⟩) step) := by
  cases step with
  | change change =>
    simp only [stepInMemory, History.step, h.tree]
    cases history.tree.apply change with
    | ok tree => exact ⟨rfl, h.checker⟩
    | error error => exact h
  | isFile path => exact h
  | query query =>
    cases hquery : query.consultsRules with
    | true =>
      -- Both look up the same directories, as both visit the same.
      obtain ⟨before, hchecker, hfrozen, hanswer⟩ := h.answer hquery
      obtain ⟨after, hafter, hkeeps⟩ := hanswer.store
      rw [History.step_of_consultsRules hquery]
      refine ⟨h.tree, after, ?_, hfrozen.look hkeeps⟩
      simp only [stepInMemory, ask, hafter]
      rw [hchecker]
      rfl
    | false =>
      obtain ⟨htree, store, hchecker, hfrozen⟩ := h
      cases query with
      | clear =>
        refine ⟨htree, .empty, ?_, fun directory => Store.get?_empty directory⟩
        simp only [stepInMemory, ask]
        rw [hchecker]
        rfl
      | locate | keptRules | linesAt | isDirectory =>
        refine ⟨htree, store, hchecker, ?_⟩
        simpa only [History.step, Checker.lookedUp, History.look, List.map_nil, List.append_nil]
          using hfrozen
      | isIgnored | explain | resolve | rulesAt => cases hquery

theorem run (h : session.Agrees root metadataName history) (steps : List MemoryStep) :
    (session.runInMemory steps).2.Agrees root metadataName
      (history.run (.new root ⟨metadataName, false⟩) steps) := by
  induction steps generalizing session history with
  | nil => exact h
  | cons step rest ih => exact ih (h.step step)

end Session.Agrees

/-! ## Trees that do not change -/

namespace History

/-- The first look-up reads what any later one would. -/
theorem source_of_unchanged {history : History} {fixed : Source}
    (htree : history.tree.source = fixed)
    (hlookUps : ∀ lookUp ∈ history.lookUps, lookUp.tree.source = fixed) :
    history.source = fixed := by
  obtain ⟨linesAt, isDirectory⟩ := fixed
  have hlines : ∀ directory, history.source.linesAt directory = linesAt directory := by
    intro directory
    simp only [source, htree]
    cases hfrozen : history.frozen? directory with
    | none => rfl
    | some lines =>
      obtain ⟨lookUp, hmem, hread⟩ := List.exists_of_findSome?_eq_some hfrozen
      split at hread
      · rw [hlookUps lookUp hmem, Source.readLines?] at hread
        simp only at hread
        cases hlinesAt : linesAt directory with
        | ok now =>
          rw [hlinesAt] at hread
          rw [Option.some.inj hread]
        | error error =>
          rw [hlinesAt] at hread
          cases hread
      · cases hread
  simp only [source, htree] at hlines ⊢
  rw [funext hlines]

theorem mem_lookUps_step {plain : Checker} {history : History} {step : Session.MemoryStep}
    {lookUp : LookUp} (h : lookUp ∈ (history.step plain step).lookUps) :
    lookUp ∈ history.lookUps ∨ lookUp.tree = history.tree := by
  have hlook : ∀ directories, lookUp ∈ (history.look directories).lookUps →
      lookUp ∈ history.lookUps ∨ lookUp.tree = history.tree := by
    intro directories hmem
    rcases List.mem_append.1 hmem with hold | hnew
    · exact .inl hold
    · obtain ⟨directory, -, rfl⟩ := List.mem_map.1 hnew
      exact .inr rfl
  cases step with
  | change change =>
    simp only [History.step] at h
    split at h
    · exact .inl h
    · exact .inl h
  | isFile path => exact .inl h
  | query query =>
    cases query with
    | clear => cases h
    | _ => exact hlook _ h

theorem lookUps_of_unchanged {plain : Checker} {history : History}
    {steps : List Session.MemoryStep} {fixed : Source}
    (hunchanged : ∀ before, before <+: steps → (history.run plain before).tree.source = fixed)
    (hlookUps : ∀ lookUp ∈ history.lookUps, lookUp.tree.source = fixed) :
    ∀ lookUp ∈ (history.run plain steps).lookUps, lookUp.tree.source = fixed := by
  induction steps generalizing history with
  | nil => exact hlookUps
  | cons step rest ih =>
    apply ih
    · intro before hbefore
      exact hunchanged (step :: before) (List.cons_prefix_cons.2 ⟨rfl, hbefore⟩)
    · intro lookUp hmem
      rcases mem_lookUps_step hmem with hmem | htree
      · exact hlookUps lookUp hmem
      -- The step has looked into the tree as it stood before any of the steps.
      · rw [htree]
        exact hunchanged [] List.nil_prefix

end History

/-! ## Sessions -/

namespace Session

/-- The session answers a query as a checker does on another tree, and visits what it visits. -/
def AnswersAs (session : Session MemoryTree) (checker : Checker) (source : Source)
    (query : Query) : Prop :=
  (session.stepInMemory (.query query)).1 = .ok (checker.answer source query).value ∧
    (session.stepInMemory (.query query)).2.1.visits = (checker.answer source query).log.visits

/-- At every moment of a session, a checker that has kept rules from the start keeps exactly the
frozen ones, and answers as one that keeps nothing does on the tree with the frozen rule files. As
long as the tree does not change, that is the tree itself. -/
theorem answers_as_frozen (root : NativePath) (metadataName : Text) (tree : MemoryTree)
    (steps : List MemoryStep) :
    let start : Session MemoryTree := ⟨tree, .new root ⟨metadataName, true⟩⟩
    let now := (start.runInMemory steps).2
    let plain := Checker.new root ⟨metadataName, false⟩
    let history := History.run plain ⟨tree, []⟩ steps
    now.tree = history.tree ∧
      (∃ store, now.checker.store = some store ∧ ∀ directory,
        store.get? directory = (history.frozen? directory).map rulesOfLines) ∧
      (∀ query, query.consultsRules → now.AnswersAs plain history.source query) ∧
      ((∀ before, before <+: steps → (start.runInMemory before).2.tree.source = tree.source) →
        ∀ query, query.consultsRules → now.AnswersAs plain tree.source query) := by
  intro start now plain history
  have hrun : ∀ steps, (start.runInMemory steps).2.Agrees root metadataName
      (History.run plain ⟨tree, []⟩ steps) := (Agrees.start root metadataName tree).run
  have hanswers : ∀ query, query.consultsRules → now.AnswersAs plain history.source query := by
    intro query hquery
    obtain ⟨_, _, _, hanswer⟩ := (hrun steps).answer hquery
    exact ⟨congrArg Except.ok hanswer.value, hanswer.visits⟩
  refine ⟨(hrun steps).tree, ?_, hanswers, ?_⟩
  · obtain ⟨store, hchecker, hfrozen⟩ := (hrun steps).checker
    exact ⟨store, congrArg Checker.store hchecker, hfrozen⟩
  · intro hunchanged
    have hhistory : ∀ before, before <+: steps →
        (History.run plain ⟨tree, []⟩ before).tree.source = tree.source := by
      intro before hbefore
      rw [← (hrun before).tree]
      exact hunchanged before hbefore
    have hsource : history.source = tree.source := by
      apply History.source_of_unchanged (hhistory steps (List.prefix_refl steps))
      exact History.lookUps_of_unchanged hhistory (by simp)
    rw [← hsource]
    exact hanswers

/-- A directory whose rule file is absent when it is first looked up has no rules later on. -/
theorem rulesAt_root_after_change :
    let start : Session MemoryTree := ⟨.empty, .new ⟨[]⟩ .standard⟩
    let look := MemoryStep.query (.rulesAt .root)
    let write := MemoryStep.change (.ruleFile [] "x".toList)
    ((start.runInMemory [look, write]).2.stepInMemory look).1 = .ok (.rules (some [])) ∧
      (start.runInMemory [look]).2.AnswersAs (.new ⟨[]⟩ ⟨".git".toList, false⟩)
        MemoryTree.empty.source (.rulesAt .root) := by
  intro start look write
  constructor
  · obtain ⟨-, -, hanswers, -⟩ := answers_as_frozen ⟨[]⟩ ".git".toList .empty [look, write]
    refine (hanswers (.rulesAt .root) rfl).1.trans ?_
    -- The file is written after the look-up, at which there was none.
    have hread : MemoryTree.empty.source.readLines? .root = some none := by
      simp [Source.readLines?, MemoryTree.source, MemoryTree.linesAt, MemoryTree.ruleFile?,
        MemoryTree.empty, Except.toOption]
    have hlookUps : (History.run (.new ⟨[]⟩ ⟨".git".toList, false⟩) ⟨.empty, []⟩
        [look, write]).lookUps = [⟨.empty, .root⟩] := rfl
    have hfrozen : (History.run (.new ⟨[]⟩ ⟨".git".toList, false⟩) ⟨.empty, []⟩
        [look, write]).frozen? .root = some none := by
      simp only [History.frozen?, hlookUps, List.findSome?_cons, if_true, hread]
    have hrules : (History.run (.new ⟨[]⟩ ⟨".git".toList, false⟩) ⟨.empty, []⟩
        [look, write]).source.rulesAt .root = [] := by
      rw [Source.rulesAt_eq, History.readLines?_source, hfrozen]
      rfl
    simp only [Checker.answer, Checker.rulesAt, Checker.new, Outcome.map]
    rw [if_neg Bool.false_ne_true, rulesAt_none_value]
    exact congrArg (fun rules => Except.ok (Answer.rules (some rules))) hrules
  · refine (answers_as_frozen ⟨[]⟩ ".git".toList .empty [look]).2.2.2 ?_ (.rulesAt .root) rfl
    intro before hbefore
    rcases List.prefix_cons_iff.1 hbefore with rfl | ⟨rest, rfl, hrest⟩
    · rfl
    · rw [List.prefix_nil.1 hrest]
      rfl

end Session

end PathIgnore
