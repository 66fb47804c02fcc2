import PathIgnore.Proofs.Checker.Exactness
import PathIgnore.Proofs.Checker.KeptRules
import PathIgnore.Proofs.TreePath.Containment

/-!
# What a decision depends on

A checker that keeps no rules reads the rule files on the way up to the directory that decides, and
no others count: two trees that agree on these files get the same decision and the same visits.
The climb is described by the directories that it reaches (`reached`), and each of them by what it
decides by itself.
-/

namespace PathIgnore

/-- The elements up to the first that has an opinion, with that one. -/
def reached {α β : Type} (opinion : α → Option β) : List α → List α
  | [] => []
  | a :: rest => a :: if (opinion a).isSome then [] else reached opinion rest

section

variable {α β : Type} {opinion other : α → Option β} {l : List α}

/-- Only the opinions of the elements that are reached count. -/
theorem reached_congr (h : ∀ a ∈ reached opinion l, other a = opinion a) :
    reached other l = reached opinion l ∧ l.findSome? other = l.findSome? opinion := by
  induction l with
  | nil => exact ⟨rfl, rfl⟩
  | cons a rest ih =>
    have hself : other a = opinion a := h a (by simp [reached])
    rw [reached, reached, List.findSome?_cons, List.findSome?_cons, hself]
    cases hopinion : opinion a with
    | some b => exact ⟨rfl, rfl⟩
    | none =>
      obtain ⟨hreached, hfirst⟩ := ih fun b hb => h b (by simp [reached, hopinion, hb])
      simp [hreached, hfirst]

theorem mem_reached_map {γ : Type} {f : γ → α} {names : List γ} {a : α} :
    a ∈ reached opinion (names.map f) ↔
      ∃ c ∈ reached (fun c => opinion (f c)) names, f c = a := by
  induction names with
  | nil => simp [reached]
  | cons c rest ih => cases h : opinion (f c) <;> simp [reached, h, ih, eq_comm]

/-- On the way down from a number, those are reached above which there is no opinion. -/
theorem mem_reached_reverse_range {f : Nat → Option β} {n k : Nat} :
    k ∈ reached f (List.range n).reverse ↔ k < n ∧ ∀ l, k < l → l < n → f l = none := by
  induction n with
  | zero => simp [reached]
  | succ n ih =>
    rw [List.range_succ, List.reverse_concat, reached, List.mem_cons]
    constructor
    · rintro (rfl | hrest)
      · exact ⟨Nat.lt_succ_self k, fun l hl hlt => absurd hl (by omega)⟩
      · cases hn : f n with
        | some b => simp [hn] at hrest
        | none =>
          obtain ⟨hk, hafter⟩ := ih.1 (by simpa [hn] using hrest)
          refine ⟨by omega, fun l hl hlt => ?_⟩
          rcases Nat.lt_succ_iff_lt_or_eq.1 hlt with hlt | rfl
          · exact hafter l hl hlt
          · exact hn
    · rintro ⟨hk, hafter⟩
      rcases Nat.lt_succ_iff_lt_or_eq.1 hk with hlt | rfl
      · right
        simpa [hafter n hlt (Nat.lt_succ_self n)] using
          ih.2 ⟨hlt, fun l hl hlt => hafter l hl (by omega)⟩
      · exact .inl rfl

end

/-! ## The climb -/

/-- What a directory of a lineage says by itself. -/
def Ancestor.verdict (source : Source) (isDirectory : Bool) (ancestor : Ancestor) : Verdict :=
  ((ancestor.decision? source isDirectory).map Decision.verdict).getD .noOpinion

/-- The directories that are reached are visited, each with what it says by itself. -/
theorem visits_climb_none (source : Source) (isDirectory : Bool) (ancestors : List Ancestor) :
    (climb source isDirectory ancestors none).log.visits =
      (reached (Ancestor.decision? source isDirectory) ancestors).map fun ancestor =>
        (ancestor.path, ancestor.verdict source isDirectory) := by
  induction ancestors with
  | nil => rfl
  | cons ancestor rest ih =>
    rw [reached, List.map_cons, climb, Ancestor.verdict]
    cases hm : ancestor.metadata with
    | true =>
      have hdecision : ancestor.decision? source isDirectory =
          some (.byMetadata ancestor.path) := by
        simp [Ancestor.decision?, hm]
      simp [hdecision, Log.visited, Decision.byMetadata]
    | false =>
      have hdecision : ancestor.decision? source isDirectory =
          ((source.rulesAt ancestor.path).lastMatch? ancestor.view isDirectory).map
            (.byRule ancestor.path) := by
        simp [Ancestor.decision?, hm]
      rw [if_neg Bool.false_ne_true, hdecision]
      split
      · rename_i hview
        rw [List.isEmpty_iff.1 hview, Rules.lastMatch?_empty_path]
        simpa [Outcome.after, Log.visited] using ih
      · simp only [rulesAt_none_value, rulesAt_none_store]
        cases (source.rulesAt ancestor.path).lastMatch? ancestor.view isDirectory with
        | none => simpa [Outcome.after, Log.visited, visits_rulesAt] using ih
        | some rule => simp [Log.visited, visits_rulesAt, Decision.byRule]

/-- Two trees decide alike if the directories that are reached decide alike. -/
theorem climb_none_congr {source other : Source} {isDirectory : Bool} {ancestors : List Ancestor}
    (h : ∀ ancestor ∈ reached (Ancestor.decision? source isDirectory) ancestors,
      ancestor.decision? other isDirectory = ancestor.decision? source isDirectory) :
    (climb other isDirectory ancestors none).value =
        (climb source isDirectory ancestors none).value ∧
      (climb other isDirectory ancestors none).log.visits =
        (climb source isDirectory ancestors none).log.visits := by
  obtain ⟨hreached, hfirst⟩ := reached_congr h
  rw [climb_none_value, climb_none_value, visits_climb_none, visits_climb_none, hreached, hfirst]
  refine ⟨rfl, List.map_congr_left fun ancestor hmem => ?_⟩
  rw [Ancestor.verdict, Ancestor.verdict, h ancestor hmem]

/-! ## Rule files that count -/

/-- The lines of a directory's rule file. A rule file that cannot be read counts as absent. -/
def Source.visibleLines? (source : Source) (directory : TreePath) : Option (List Text) :=
  (source.readLines? directory).join

/-- The tree with another answer for the rule file of one directory. -/
def Source.withRuleFile (source : Source) (directory : TreePath)
    (file : Except ReadError (Option (List Text))) : Source where
  linesAt other := if other = directory then file else source.linesAt other
  isDirectory := source.isDirectory

/-- Whether the rule file of the directory was consulted for the decision about the path: the path
lies in the directory, and no nearer one has decided. A metadata directory decides without any. -/
def Decision.Consults (decision : Decision) (path directory : TreePath) : Prop :=
  path.LiesIn directory ∧
    match decision.directory, decision.rule with
    | none, _ => True
    | some decider, some _ => decider.contains directory = true
    | some _, none => False

theorem Source.rulesAt_eq_visible (source : Source) (directory : TreePath) :
    source.rulesAt directory = rulesOfLines (source.visibleLines? directory) := by
  rw [Source.rulesAt_eq, visibleLines?]
  rcases source.readLines? directory with _ | _ | lines <;> rfl

theorem Source.visibleLines?_withRuleFile (source : Source) {directory other : TreePath}
    (h : other ≠ directory) (file : Except ReadError (Option (List Text))) :
    (source.withRuleFile directory file).visibleLines? other = source.visibleLines? other := by
  simp [visibleLines?, readLines?, withRuleFile, h]

/-- A directory is not consulted if it lies farther up than the one that decides. -/
theorem Decision.Consults.not_liesIn {decision : Decision} {path directory decider : TreePath}
    (hconsults : decision.Consults path directory) (h : path.IsNormal)
    (hdecider : decision.directory = some decider) : ¬decider.LiesIn directory := by
  obtain ⟨hin, hnearer⟩ := hconsults
  obtain ⟨k, -, rfl⟩ := h.liesIn_iff.1 hin
  rw [hdecider] at hnearer
  cases hrule : decision.rule with
  | none =>
    rw [hrule] at hnearer
    exact hnearer.elim
  | some rule =>
    rw [hrule] at hnearer
    obtain ⟨j, -, rfl⟩ := (TreePath.isNormal_ancestorAt h k).contains_iff.1 hnearer
    intro hfarther
    have hnormal := TreePath.isNormal_ancestorAt (TreePath.isNormal_ancestorAt h k) j
    exact Bool.false_ne_true ((hfarther.not_contains hnormal).symm.trans hnearer)

section

variable {source other : Source} {metadataName : Text} {path : TreePath}

/-- A directory that is reached, is no metadata directory and is not the path itself is consulted. -/
theorem consults_of_reached (h : path.IsNormal) {ancestor : Ancestor}
    (hreached : ancestor ∈ reached (Ancestor.decision? source (source.countsAsDirectory path))
      (path.lineage (source.countsAsDirectory path) metadataName))
    (hmetadata : ancestor.metadata = false) (hview : ancestor.view ≠ []) :
    (judge source metadataName path none).value.Consults path ancestor.path := by
  rw [h.lineage_eq, mem_reached_map] at hreached
  obtain ⟨k, hk, rfl⟩ := hreached
  obtain ⟨hk, hnearer⟩ := mem_reached_reverse_range.1 hk
  have hdepth : k < path.depth := Nat.not_le.1 fun hle => hview (h.viewFrom_eq_nil_iff.2 hle)
  refine ⟨h.liesIn_iff.2 ⟨k, hdepth, rfl⟩, ?_⟩
  rw [judge_none_value h]
  cases hfirst : (List.range ((path.directoryNames (source.countsAsDirectory path)).length +
      1)).reverse.findSome? fun k => (path.ancestor metadataName k).decision? source
        (source.countsAsDirectory path) with
  | none => trivial
  | some decision =>
    obtain ⟨j, hj, hdecision, -⟩ := findSome?_reverse_range_eq_some_iff.1 hfirst
    -- Whoever decides is not nearer, as the climb has come this far.
    have hjk : j ≤ k := by
      refine Nat.not_lt.1 fun hlt => ?_
      rw [hnearer j hlt hj] at hdecision
      cases hdecision
    have hnone : (path.ancestor metadataName j).metadata = false := by
      rw [← Bool.not_eq_true]
      intro hmem
      have hcontains : metadataName ∈ path.components.take j := List.contains_iff_mem.1 hmem
      refine Bool.eq_false_iff.1 hmetadata (List.contains_iff_mem.2 ?_)
      exact (List.take_prefix_take_left hjk).subset hcontains
    simp only [Ancestor.decision?, hnone, Bool.false_eq_true, if_false] at hdecision
    obtain ⟨rule, -, rfl⟩ := Option.map_eq_some_iff.1 hdecision
    exact h.contains_ancestorAt hjk (Nat.le_of_lt hdepth)

/-- Trees that agree on the files that were consulted get the same decision and the same visits. -/
theorem judge_none_congr (h : path.IsNormal)
    (hisDirectory : other.isDirectory path = source.isDirectory path)
    (hlines : ∀ directory, (judge source metadataName path none).value.Consults path directory →
      other.visibleLines? directory = source.visibleLines? directory) :
    (judge other metadataName path none).value = (judge source metadataName path none).value ∧
      (judge other metadataName path none).log.visits =
        (judge source metadataName path none).log.visits := by
  have hdecisions : ∀ ancestor ∈ reached (Ancestor.decision? source (source.countsAsDirectory path))
      (path.lineage (source.countsAsDirectory path) metadataName),
      ancestor.decision? other (source.countsAsDirectory path) =
        ancestor.decision? source (source.countsAsDirectory path) := by
    intro ancestor hmem
    unfold Ancestor.decision?
    cases hmetadata : ancestor.metadata with
    | true => rfl
    | false =>
      by_cases hview : ancestor.view = []
      · simp [hview]
      · have hconsults := consults_of_reached h hmem hmetadata hview
        rw [source.rulesAt_eq_visible, other.rulesAt_eq_visible, hlines _ hconsults]
  obtain ⟨hvalue, hvisits⟩ := climb_none_congr hdecisions
  unfold judge
  simp only [Outcome.before, Log.visits_append, hisDirectory]
  exact ⟨hvalue, congrArg (· ++ _) hvisits⟩

end

/-- What a checker that keeps no rules decides about a path, and what it visits for that, depends
only on the rule files that were consulted. The file of a directory that the path does not lie in,
or that lies farther up than the one that decides, may hold anything. -/
theorem resolve_depends_on_consulted (root : NativePath) (source : Source) {settings : Settings}
    (hkeep : settings.keepRules = false) {path : TreePath} (hpath : path.IsNormal) :
    let checker := Checker.new root settings
    let here := checker.resolve source path
    (∀ other : Source, other.isDirectory path = source.isDirectory path →
      (∀ directory, here.value.Consults path directory →
        other.visibleLines? directory = source.visibleLines? directory) →
      (checker.resolve other path).value = here.value ∧
        (checker.resolve other path).log.visits = here.log.visits) ∧
    ∀ directory file,
      (¬path.LiesIn directory ∨
        ∃ decider, here.value.directory = some decider ∧ decider.LiesIn directory) →
      (checker.resolve (source.withRuleFile directory file) path).value = here.value ∧
        (checker.resolve (source.withRuleFile directory file) path).log.visits =
          here.log.visits := by
  simp only [resolve_new_of_not_keeping root hkeep]
  refine ⟨fun other => judge_none_congr hpath, ?_⟩
  intro directory file hunused
  refine judge_none_congr hpath rfl fun consulted hconsults => ?_
  apply source.visibleLines?_withRuleFile
  rintro rfl
  rcases hunused with houtside | ⟨decider, hdecider, hfarther⟩
  · exact houtside hconsults.1
  · exact hconsults.not_liesIn hpath hdecider hfarther

/-- The rule file of `f` decides about `f/h/k`. That of `f/h` is absent and may as well be
unreadable, and that of the root may hold another rule. -/
theorem resolve_keepingSource_withRuleFile :
    let checker := Checker.new ⟨[]⟩ ⟨".git".toList, false⟩
    let path := TreePath.ofComponents [['f'], ['h'], ['k']]
    let here := checker.resolve keepingSource path
    let unreadable := checker.resolve (keepingSource.withRuleFile
      (.ofComponents [['f'], ['h']]) (.error ⟨⟨[]⟩, .unreadable⟩)) path
    let changed := checker.resolve (keepingSource.withRuleFile .root (.ok (some [['k']]))) path
    path.IsNormal ∧ here.value.directory = some (.ofComponents [['f']]) ∧
      (unreadable.value = here.value ∧ unreadable.log.visits = here.log.visits) ∧
      changed.value = here.value ∧ changed.log.visits = here.log.visits := by
  intro checker path here unreadable changed
  have hnormal : path.IsNormal := by decide
  have hdirectory : here.value.directory = some (.ofComponents [['f']]) := by
    have hcovers : Rule.covers ⟨['k'], true, false, false, some [.literal 'k']⟩
        (path.viewFrom 1) (keepingSource.countsAsDirectory path) = true := by
      rw [Rule.covers_eq_any rfl]
      decide
    have hdecision := decisionAt_of_singleton (by decide) hcovers
    have hnearer : keepingSource.decisionAt path 2 = none :=
      decisionAt_eq_none_iff.2 fun rule hrule => by
        have hempty : keepingSource.rulesAt (path.ancestorAt 2) = [] := by decide
        simp [hempty] at hrule
    have hvalue : here.value = _ := judge_value_of_not_metadata hnormal (by decide)
    have hdepth : (List.range path.depth).reverse = [2, 1, 0] := by decide
    rw [hvalue, hdepth, List.findSome?_cons, hnearer, List.findSome?_cons, hdecision]
    rfl
  obtain ⟨hagree, hother⟩ := resolve_depends_on_consulted ⟨[]⟩ keepingSource
    (rfl : (⟨".git".toList, false⟩ : Settings).keepRules = false) hnormal
  refine ⟨hnormal, hdirectory, hagree _ rfl ?_, hother _ _ (.inr ⟨_, hdirectory, by decide⟩)⟩
  intro directory _
  rcases eq_or_ne directory (.ofComponents [['f'], ['h']]) with rfl | hne
  · rfl
  · exact keepingSource.visibleLines?_withRuleFile hne _

end PathIgnore
