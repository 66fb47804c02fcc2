import PathIgnore.Proofs.Checker.Opinions
import PathIgnore.Proofs.Rule.Matching

/-!
# What a checker decides

`Decided` says without a climb what the rule files of a tree decide about a path: the metadata
directory comes first, then the nearest directory with a rule that covers the path, and of its rules
the last. Main statement: a checker that keeps no rules decides exactly this.
-/

namespace PathIgnore

/-- What the rule files of a tree decide about a path. The directories that the path lies in are
those that fewer than all of its names lead to. -/
inductive Decided (source : Source) (metadataName : Text) (path : TreePath) : Decision → Prop where
  /-- A directory with the metadata name is among those that lead to the path. -/
  | metadata
      (hmetadata : metadataName ∈ path.directoryNames (source.countsAsDirectory path)) :
      Decided source metadataName path
        ⟨.ignored, some (.ofComponents (path.directoryNames (source.countsAsDirectory path))),
          none⟩
  /-- The rule at position `i` of the directory at depth `k` covers the path, and no later rule of
  that directory and no rule of a nearer one does. -/
  | rule {k i : Nat} {rule : Rule}
      (hmetadata : metadataName ∉ path.directoryNames (source.countsAsDirectory path))
      (hk : k < path.depth)
      (hrule : (source.rulesAt (path.ancestorAt k))[i]? = some rule)
      (hcovers : rule.covers (path.viewFrom k) (source.countsAsDirectory path) = true)
      (hlast : ∀ (j : Nat) (later : Rule), i < j →
        (source.rulesAt (path.ancestorAt k))[j]? = some later →
        later.covers (path.viewFrom k) (source.countsAsDirectory path) = false)
      (hnearest : ∀ l, k < l → l < path.depth → ∀ other ∈ source.rulesAt (path.ancestorAt l),
        other.covers (path.viewFrom l) (source.countsAsDirectory path) = false) :
      Decided source metadataName path
        ⟨if rule.negated then .notIgnored else .ignored, some (path.ancestorAt k), some rule⟩
  /-- No rule of a directory that the path lies in covers it. -/
  | undecided
      (hmetadata : metadataName ∉ path.directoryNames (source.countsAsDirectory path))
      (hnone : ∀ k, k < path.depth → ∀ rule ∈ source.rulesAt (path.ancestorAt k),
        rule.covers (path.viewFrom k) (source.countsAsDirectory path) = false) :
      Decided source metadataName path ⟨.noOpinion, none, none⟩

section

variable {source : Source} {metadataName : Text} {path : TreePath}

theorem value_of_decided (h : path.IsNormal) {decision : Decision}
    (hdecided : Decided source metadataName path decision) :
    (judge source metadataName path none).value = decision := by
  cases hdecided with
  | metadata hmetadata => exact judge_value_of_metadata h hmetadata
  | @rule k i rule hmetadata hk hrule hcovers hlast hnearest =>
    have hdecision : source.decisionAt path k = some (.byRule (path.ancestorAt k) rule) := by
      unfold Source.decisionAt
      rw [Rules.lastMatch?_eq_some_iff.2 ⟨i, hrule, hcovers, hlast⟩]
      rfl
    have hfirst := findSome?_reverse_range_eq_some_iff.2 ⟨k, hk, hdecision,
      fun l hl hlt => decisionAt_eq_none_iff.2 (hnearest l hl hlt)⟩
    rw [judge_value_of_not_metadata h hmetadata, hfirst]
    rfl
  | undecided hmetadata hnone =>
    have hfirst : (List.range path.depth).reverse.findSome? (source.decisionAt path) = none := by
      rw [List.findSome?_eq_none_iff]
      intro k hk
      rw [List.mem_reverse, List.mem_range] at hk
      exact decisionAt_eq_none_iff.2 (hnone k hk)
    rw [judge_value_of_not_metadata h hmetadata, hfirst]
    rfl

theorem decided_value (h : path.IsNormal) :
    Decided source metadataName path (judge source metadataName path none).value := by
  rcases Classical.em
    (metadataName ∈ path.directoryNames (source.countsAsDirectory path)) with hmetadata | hmetadata
  · rw [judge_value_of_metadata h hmetadata]
    exact .metadata hmetadata
  rw [judge_value_of_not_metadata h hmetadata]
  cases hfirst : (List.range path.depth).reverse.findSome? (source.decisionAt path) with
  | none =>
    refine .undecided hmetadata ?_
    intro k hk
    rw [List.findSome?_eq_none_iff] at hfirst
    exact decisionAt_eq_none_iff.1 (hfirst k (List.mem_reverse.2 (List.mem_range.2 hk)))
  | some decision =>
    obtain ⟨k, hk, hdecision, hnearest⟩ := findSome?_reverse_range_eq_some_iff.1 hfirst
    obtain ⟨rule, hmatch, rfl⟩ := Option.map_eq_some_iff.1 hdecision
    obtain ⟨i, hrule, hcovers, hlast⟩ := Rules.lastMatch?_eq_some_iff.1 hmatch
    refine .rule hmetadata hk hrule hcovers hlast ?_
    intro l hl hlt
    exact decisionAt_eq_none_iff.1 (hnearest l hl hlt)

/-- The rule file of a path says nothing about the path itself, so it is not read. -/
theorem not_mem_asked_judge (h : path.IsNormal) (store : Option Store) :
    path ∉ (judge source metadataName path store).log.asked := by
  intro hasked
  unfold judge at hasked
  simp only [Outcome.before, Log.asked_append, List.mem_append] at hasked
  rcases hasked with hasked | hasked
  · obtain ⟨other, hmem, hpath, hview⟩ := exists_of_mem_asked_climb hasked
    rw [h.lineage_eq] at hmem
    obtain ⟨k, hk, rfl⟩ := List.mem_map.1 hmem
    rw [List.mem_reverse, List.mem_range] at hk
    have hle := path.length_directoryNames_le (path.isRoot || source.isDirectory path)
    have hself : k = path.depth :=
      (h.ancestorAt_inj (by omega) (Nat.le_refl _)).1 (hpath.trans h.ancestorAt_depth.symm)
    exact hview (h.viewFrom_eq_nil_iff.2 (Nat.le_of_eq hself.symm))
  · cases hasked

end

/-- A checker that keeps no rules decides about every path exactly what the rule files of the tree
decide, and never reads the rule file of the path itself. -/
theorem resolve_value_iff_decided (root : NativePath) (source : Source) (settings : Settings)
    (hkeep : settings.keepRules = false) {path : TreePath} (hpath : path.IsParsed) :
    (∀ decision, ((Checker.new root settings).resolve source path).value = decision ↔
      Decided source settings.metadataName path decision) ∧
    path ∉ ((Checker.new root settings).resolve source path).log.asked := by
  have hstore : (Checker.new root settings).store = none := by simp [Checker.new, hkeep]
  have hresolve : (Checker.new root settings).resolve source path =
      judge source settings.metadataName path none := by
    rw [Checker.resolve, hstore]
    rfl
  rw [hresolve]
  refine ⟨?_, not_mem_asked_judge hpath.isNormal none⟩
  intro decision
  constructor
  · rintro rfl
    exact decided_value hpath.isNormal
  · exact value_of_decided hpath.isNormal

/-- A tree in which the root ignores everything and the directory `f` keeps `k`. -/
def keepingSource : Source where
  linesAt directory :=
    if directory = .ofComponents [['f']] then .ok (some [['!', 'k']])
    else if directory = .root then .ok (some [['*']])
    else .ok none
  isDirectory _ := false

/-- The nearer file wins over the root: `f/k` is kept. -/
theorem resolve_keepingSource :
    ((Checker.new ⟨[]⟩ ⟨".git".toList, false⟩).resolve keepingSource
        (.ofComponents [['f'], ['k']])).value =
      ⟨.notIgnored, some (.ofComponents [['f']]),
        some ⟨['k'], true, false, false, some [.literal 'k']⟩⟩ ∧
    TreePath.ofComponents [['f'], ['k']] ∉
      ((Checker.new ⟨[]⟩ ⟨".git".toList, false⟩).resolve keepingSource
        (.ofComponents [['f'], ['k']])).log.asked := by
  have hpath : (TreePath.ofComponents [['f'], ['k']]).IsParsed := .inl ⟨"f/k".toList, by decide⟩
  obtain ⟨hvalue, hasked⟩ :=
    resolve_value_iff_decided ⟨[]⟩ keepingSource ⟨".git".toList, false⟩ rfl hpath
  have hrules : keepingSource.rulesAt (.ofComponents [['f']]) =
      [⟨['k'], true, false, false, some [.literal 'k']⟩] := by decide
  have hcovers :
      Rule.covers ⟨['k'], true, false, false, some [.literal 'k']⟩ ['k'] false = true := by
    rw [Rule.covers_eq_any rfl]
    decide
  have hdecided : Decided keepingSource ".git".toList (.ofComponents [['f'], ['k']])
      ⟨.notIgnored, some (.ofComponents [['f']]),
        some ⟨['k'], true, false, false, some [.literal 'k']⟩⟩ := by
    have hfirst : ((keepingSource.rulesAt (.ofComponents [['f']]))[0]? : Option Rule) =
        some ⟨['k'], true, false, false, some [.literal 'k']⟩ := by decide
    refine @Decided.rule keepingSource ".git".toList (.ofComponents [['f'], ['k']]) 1 0
      ⟨['k'], true, false, false, some [.literal 'k']⟩ (by decide) (by decide) hfirst hcovers ?_ ?_
    · intro j later hj hlater
      have hend : (keepingSource.rulesAt (.ofComponents [['f']]))[j]? = none := by
        rw [hrules]
        exact List.getElem?_eq_none hj
      cases hend.symm.trans hlater
    · intro l hl hlt
      exact absurd hlt (Nat.not_lt.2 hl)
  exact ⟨(hvalue _).2 hdecided, hasked⟩

end PathIgnore
