import PathIgnore.Proofs.Checker.Footprint
import PathIgnore.Proofs.Checker.LookUps
import PathIgnore.Proofs.Session.Frozen
import PathIgnore.Proofs.Session.Unchanged

/-!
# The order of queries

On a tree that stays as it is, a checker that keeps rules looks up the same directories for a query
whatever it was asked before (`looksUp_answer`). What it has read and what it keeps after a run
depends on which directories were looked up, so the order of the queries does not matter.
-/

namespace PathIgnore

namespace Checker

/-- What comes of some queries about a tree, asked one after the other. -/
def askEach (source : Source) (checker : Checker) : List Query → List (Outcome Answer)
  | [] => []
  | query :: rest =>
    let outcome := checker.answer source query
    outcome :: askEach source (checker.withStore outcome.store) rest

/-- The directories whose rule files were read for some queries. -/
def askedBy (outcomes : List (Outcome Answer)) : List TreePath :=
  outcomes.flatMap (·.log.asked)

section

variable {root : NativePath} {metadataName : Text} {source : Source} {store : Store}

theorem looksUp_resolve (h : KeepsTo source (some store)) (path : TreePath) :
    (resolve ⟨root, ⟨metadataName, true⟩, some store⟩ source path).LooksUp source
      ((Checker.new root ⟨metadataName, false⟩).consulted source path) (some store) := by
  have hvisits := (@resolve_matches root metadataName source source store
    (fun directory => (h store rfl directory).symm) rfl path).visits
  unfold Checker.consulted
  rw [← hvisits]
  exact looksUp_judge source metadataName path (some store)

theorem looksUp_explain (h : KeepsTo source (some store)) (candidate : NativePath) :
    (explain ⟨root, ⟨metadataName, true⟩, some store⟩ source candidate).LooksUp source
      ((Checker.new root ⟨metadataName, false⟩).lookedUp source (.explain candidate))
      (some store) := by
  -- Where the candidate lies depends on the root alone.
  have hlocate : locate ⟨root, ⟨metadataName, true⟩, some store⟩ candidate =
      (Checker.new root ⟨metadataName, false⟩).locate candidate := rfl
  simp only [explain, lookedUp, hlocate]
  cases (Checker.new root ⟨metadataName, false⟩).locate candidate with
  | ok path => exact (looksUp_resolve h path).map Except.ok
  | error error => exact .same _ rfl source (some store)

/-- The step: a query looks up its directories, and nothing else. -/
theorem looksUp_answer (h : KeepsTo source (some store)) {query : Query}
    (hquery : query.consultsRules) :
    (answer ⟨root, ⟨metadataName, true⟩, some store⟩ source query).LooksUp source
      ((Checker.new root ⟨metadataName, false⟩).lookedUp source query) (some store) := by
  cases query with
  | isIgnored candidate =>
    have hexplain := @looksUp_explain root metadataName source store h candidate
    simp only [answer, isIgnored]
    cases (explain ⟨root, ⟨metadataName, true⟩, some store⟩ source candidate).value with
    | ok decision => exact (hexplain.map _).map _
    | error error => exact ((hexplain.map _).before _).map _
  | explain candidate =>
    unfold answer
    exact (looksUp_explain h candidate).map _
  | resolve path => exact (looksUp_resolve h path).map Answer.decision
  | rulesAt directory => exact ⟨(List.append_nil _).symm, rfl⟩
  | locate | keptRules | linesAt | isDirectory | clear => cases hquery

/-- The run: the answers are those of a checker that keeps nothing, and what is read and kept is
what looking up all directories one after the other reads and keeps. -/
theorem run_eq_lookUpAll (h : KeepsTo source (some store)) {queries : List Query}
    (hqueries : ∀ query ∈ queries, query.consultsRules) :
    let checker : Checker := ⟨root, ⟨metadataName, true⟩, some store⟩
    let plain := Checker.new root ⟨metadataName, false⟩
    let looked := lookUpAll source (queries.flatMap (plain.lookedUp source)) (some store)
    (checker.askEach source queries).map Outcome.value =
        queries.map (fun query => (plain.answer source query).value) ∧
      askedBy (checker.askEach source queries) = looked.log.asked ∧
      (checker.askAll source queries).store = looked.store := by
  induction queries generalizing store with
  | nil => exact ⟨rfl, rfl, rfl⟩
  | cons query rest ih =>
    have hquery := hqueries query (by simp)
    have hmatches := @answer_matches root metadataName source source store
      (fun directory => (h store rfl directory).symm) rfl query hquery
    obtain ⟨hasked, hstore⟩ := @looksUp_answer root metadataName source store h query hquery
    obtain ⟨after, hafter, -⟩ := hmatches.store
    have hkeeps : KeepsTo source (some after) := hafter ▸ h.of_matches hmatches
    obtain ⟨hvalues, haskedRest, hstoreRest⟩ :=
      ih hkeeps fun other hmem => hqueries other (List.mem_cons_of_mem query hmem)
    obtain ⟨haskedBoth, hstoreBoth⟩ := lookUpAll_append source
      ((Checker.new root ⟨metadataName, false⟩).lookedUp source query)
      (rest.flatMap ((Checker.new root ⟨metadataName, false⟩).lookedUp source)) (some store)
    rw [← hstore, hafter] at haskedBoth hstoreBoth
    simp only [askEach, askedBy, askAll, List.map_cons, List.foldl_cons, List.flatMap_cons,
      withStore, hafter, hmatches.value, haskedBoth, hstoreBoth, ← hasked]
    exact ⟨congrArg _ hvalues, congrArg _ haskedRest, hstoreRest⟩

end

/-- A run of a checker that kept nothing at first, said without the order of the queries but for the
answers: which rule files are read and kept depends on which queries there are. -/
theorem askEach_new (root : NativePath) (metadataName : Text) (source : Source)
    {queries : List Query} (hqueries : ∀ query ∈ queries, query.consultsRules) :
    let checker := Checker.new root ⟨metadataName, true⟩
    let plain := Checker.new root ⟨metadataName, false⟩
    let lookedUp := queries.flatMap (plain.lookedUp source)
    let asked := askedBy (checker.askEach source queries)
    (checker.askEach source queries).map Outcome.value =
        queries.map (fun query => (plain.answer source query).value) ∧
      (∀ directory, directory ∈ asked ↔ directory ∈ lookedUp) ∧
      (∀ directory, (source.readLines? directory).isSome → asked.count directory ≤ 1) ∧
      ∃ kept, (checker.askAll source queries).store = some kept ∧ ∀ directory,
        kept.get? directory =
          if directory ∈ lookedUp then (source.readLines? directory).map rulesOfLines
          else none := by
  intro checker plain lookedUp asked
  obtain ⟨hvalues, hasked, hstore⟩ :=
    @run_eq_lookUpAll root metadataName source .empty keepsTo_empty queries hqueries
  replace hasked : asked = (lookUpAll source lookedUp (some .empty)).log.asked := hasked
  refine ⟨hvalues, ?_, ?_, ?_⟩
  · intro directory
    rw [hasked, mem_asked_lookUpAll]
    simp [isKept]
  · intro directory hreadable
    rw [hasked]
    exact count_asked_lookUpAll_le_one hreadable lookedUp .empty
  · obtain ⟨kept, hkept, hkeeps⟩ := @store_lookUpAll_some source lookedUp .empty
    refine ⟨kept, hstore.trans hkept, ?_⟩
    intro directory
    rw [hkeeps directory, Store.get?_empty, Option.none_or]

/-- Two checkers that keep rules are asked the same queries about a tree that stays as it is, in
different orders. Each query gets the answer that a checker gives that keeps nothing; both keep the
same rules in the end, and have read the same rule files, those that can be read only once. -/
theorem askEach_perm (root : NativePath) (metadataName : Text) (source : Source)
    {queries others : List Query} (hqueries : ∀ query ∈ queries, query.consultsRules)
    (hperm : queries.Perm others) :
    let checker := Checker.new root ⟨metadataName, true⟩
    let answer := fun query => ((Checker.new root ⟨metadataName, false⟩).answer source query).value
    let asked := askedBy (checker.askEach source queries)
    let otherAsked := askedBy (checker.askEach source others)
    ((checker.askEach source queries).map Outcome.value = queries.map answer ∧
      (checker.askEach source others).map Outcome.value = others.map answer) ∧
    (∃ kept otherKept, (checker.askAll source queries).store = some kept ∧
      (checker.askAll source others).store = some otherKept ∧
      ∀ directory, kept.get? directory = otherKept.get? directory) ∧
    (∀ directory, (source.readLines? directory).isSome →
      asked.count directory ≤ 1 ∧ otherAsked.count directory ≤ 1) ∧
    ∀ directory, directory ∈ asked ↔ directory ∈ otherAsked := by
  intro checker answer asked otherAsked
  have hothers : ∀ query ∈ others, query.consultsRules :=
    fun query hmem => hqueries query (hperm.mem_iff.2 hmem)
  -- The directories that are looked up do not depend on the order, as no answer does.
  have hlookedUp := fun directory =>
    (hperm.flatMap_right ((Checker.new root ⟨metadataName, false⟩).lookedUp source)).mem_iff
      (a := directory)
  obtain ⟨hvalues, hmem, hcount, kept, hkept, hget⟩ :=
    askEach_new root metadataName source hqueries
  obtain ⟨hotherValues, hotherMem, hotherCount, otherKept, hotherKept, hotherGet⟩ :=
    askEach_new root metadataName source hothers
  refine ⟨⟨hvalues, hotherValues⟩, ⟨kept, otherKept, hkept, hotherKept, ?_⟩, ?_, ?_⟩
  · intro directory
    rw [hget directory, hotherGet directory]
    simp only [hlookedUp directory]
  · exact fun directory hreadable => ⟨hcount directory hreadable, hotherCount directory hreadable⟩
  · exact fun directory =>
      (hmem directory).trans ((hlookedUp directory).trans (hotherMem directory).symm)

/-- The rule file of `f` cannot be read. Whether `f/k` is asked about first or last, the answer is
the same, and the rule file of the root is read only once, that of `f` both times. -/
theorem askEach_unreadable_perm :
    let source := keepingSource.withRuleFile (.ofComponents [['f']]) (.error ⟨⟨[]⟩, .unreadable⟩)
    let path := TreePath.ofComponents [['f'], ['k']]
    let queries := [Query.resolve path, .rulesAt (.ofComponents [['f']]), .rulesAt .root]
    let others := [Query.rulesAt (.ofComponents [['f']]), .rulesAt .root, .resolve path]
    let checker := Checker.new ⟨[]⟩ ⟨".git".toList, true⟩
    ((checker.askEach source queries)[0]?.map Outcome.value =
        (checker.askEach source others)[2]?.map Outcome.value) ∧
      ((askedBy (checker.askEach source queries)).count .root ≤ 1 ∧
        (askedBy (checker.askEach source others)).count .root ≤ 1) ∧
      (.ofComponents [['f']] ∈ askedBy (checker.askEach source queries) ↔
        .ofComponents [['f']] ∈ askedBy (checker.askEach source others)) := by
  intro source path queries others checker
  have hperm : queries.Perm others := (List.perm_append_singleton (Query.resolve path) _).symm
  obtain ⟨⟨hvalues, hotherValues⟩, -, hcount, hmem⟩ :=
    askEach_perm ⟨[]⟩ ".git".toList source (by decide) hperm
  refine ⟨?_, hcount .root (by decide), hmem _⟩
  have hfirst := congrArg (·[0]?) hvalues
  have hlast := congrArg (·[2]?) hotherValues
  simp only [List.getElem?_map] at hfirst hlast
  exact hfirst.trans hlast.symm

end Checker

end PathIgnore
