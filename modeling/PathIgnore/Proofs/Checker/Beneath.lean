import PathIgnore.Proofs.Checker.Exactness
import PathIgnore.Proofs.Session.Unchanged
import PathIgnore.Proofs.TreePath.Containment

/-!
# What lies beneath an ignored directory

As long as no rule takes anything back, whatever lies beneath an ignored directory is ignored: the
names that make a directory a metadata directory lead on to what lies in it, and a rule that covers
the directory covers what lies below it. Which directory decides may differ.
-/

namespace PathIgnore

section

variable {source : Source} {metadataName : Text} {path : TreePath}

/-- A directory that has an opinion about one that lies in it has one about what lies there. -/
theorem decisionAt_ne_none_of_ancestorAt (h : path.IsNormal) {j k : Nat} (hjk : j < k)
    (hk : k < path.depth) (hdecision : source.decisionAt (path.ancestorAt k) j ≠ none) :
    source.decisionAt path j ≠ none := by
  rw [Ne, decisionAt_eq_none_iff] at hdecision ⊢
  push Not at hdecision ⊢
  obtain ⟨rule, hrule, hcovers⟩ := hdecision
  rw [h.ancestorAt_ancestorAt (Nat.le_of_lt hjk)] at hrule
  refine ⟨rule, hrule, ?_⟩
  rw [h.viewFrom_eq_append hjk hk]
  exact ne_false_of_eq_true (Rule.covers_append_slash (eq_true_of_ne_false hcovers) _ _)

/-- A decision by rules of which none is negated is to ignore the path. -/
theorem isIgnored_of_decisionAt {k : Nat} {decision : Decision}
    (hrules : ∀ rule ∈ source.rulesAt (path.ancestorAt k), rule.negated = false)
    (hdecision : source.decisionAt path k = some decision) : decision.isIgnored = true := by
  obtain ⟨rule, hmatch, rfl⟩ := Option.map_eq_some_iff.1 hdecision
  obtain ⟨i, hrule, -, -⟩ := Rules.lastMatch?_eq_some_iff.1 hmatch
  have hpositive := hrules rule (List.mem_of_getElem? hrule)
  simp [Decision.isIgnored, Decision.byRule, Rule.verdict, hpositive]

theorem isIgnored_judge_of_liesIn {directory : TreePath} (h : path.IsNormal)
    (hin : path.LiesIn directory)
    (hrules : ∀ above, path.LiesIn above → ∀ rule ∈ source.rulesAt above, rule.negated = false)
    (hignored : (judge source metadataName directory none).value.isIgnored = true) :
    (judge source metadataName path none).value.isIgnored = true := by
  obtain ⟨k, hk, rfl⟩ := h.liesIn_iff.1 hin
  have hdirectory := TreePath.isNormal_ancestorAt h k
  by_cases hmetadata : metadataName ∈ path.directoryNames (source.countsAsDirectory path)
  · rw [judge_value_of_metadata h hmetadata]
    rfl
  have hnot : metadataName ∉
      (path.ancestorAt k).directoryNames (source.countsAsDirectory (path.ancestorAt k)) :=
    fun hmem => hmetadata (h.mem_directoryNames hk hmem _)
  rw [judge_value_of_not_metadata hdirectory hnot, h.depth_ancestorAt (Nat.le_of_lt hk)] at hignored
  rw [judge_value_of_not_metadata h hmetadata]
  cases hfirst : (List.range path.depth).reverse.findSome? (source.decisionAt path) with
  | some decision =>
    obtain ⟨l, hl, hdecision, -⟩ := findSome?_reverse_range_eq_some_iff.1 hfirst
    exact isIgnored_of_decisionAt (hrules _ (h.liesIn_iff.2 ⟨l, hl, rfl⟩)) hdecision
  | none =>
    -- No directory has an opinion about the path, so none has one about the directory.
    have hnone : (List.range k).reverse.findSome? (source.decisionAt (path.ancestorAt k)) =
        none := by
      rw [List.findSome?_eq_none_iff] at hfirst ⊢
      intro j hj
      rw [List.mem_reverse, List.mem_range] at hj
      by_contra hdecision
      refine decisionAt_ne_none_of_ancestorAt h hj hk hdecision (hfirst j ?_)
      rw [List.mem_reverse, List.mem_range]
      exact Nat.lt_trans hj hk
    rw [hnone] at hignored
    cases hignored

end

/-- What lies beneath an ignored directory is ignored if no rule on the way is negated, whatever the
checker was asked before it was asked about either of them. -/
theorem isIgnored_beneath (root : NativePath) (settings : Settings) (source : Source)
    {path directory : TreePath} (hpath : path.IsNormal) (hin : path.LiesIn directory)
    (hrules : ∀ above, path.LiesIn above → ∀ rule ∈ source.rulesAt above, rule.negated = false)
    (first second : List Query)
    (hignored : (((Checker.new root settings).askAll source first).resolve source
      directory).value.isIgnored = true) :
    (((Checker.new root settings).askAll source second).resolve source
      path).value.isIgnored = true := by
  rw [Checker.resolve_askAll_value] at hignored ⊢
  exact isIgnored_judge_of_liesIn hpath hin hrules hignored

/-- A tree in which the root ignores the directory `b`, and `b` ignores `y`. -/
def nestedSource : Source where
  linesAt directory :=
    if directory = .root then .ok (some [['b', '/']])
    else if directory = .ofComponents [['b']] then .ok (some [['y']])
    else .ok none
  isDirectory path := path = .ofComponents [['b']]

/-- The root ignores `b`, and so `b/x/y` is ignored, about which `b` decides. -/
theorem isIgnored_nestedSource :
    let checker := Checker.new ⟨[]⟩ .standard
    let path := TreePath.ofComponents [['b'], ['x'], ['y']]
    path.LiesIn (.ofComponents [['b']]) ∧
      (checker.resolve nestedSource (.ofComponents [['b']])).value.isIgnored = true ∧
      ((checker.askAll nestedSource [.rulesAt .root, .resolve path]).resolve nestedSource
        path).value.isIgnored = true := by
  intro checker path
  have hin : path.LiesIn (.ofComponents [['b']]) := by decide
  have hroot : nestedSource.rulesAt .root =
      [⟨['b'], false, false, true, some [.literal 'b']⟩] := by decide
  have hinner : nestedSource.rulesAt (.ofComponents [['b']]) =
      [⟨['y'], false, false, false, some [.literal 'y']⟩] := by decide
  have hrules : ∀ above, path.LiesIn above → ∀ rule ∈ nestedSource.rulesAt above,
      rule.negated = false := by
    intro above _ rule hrule
    by_cases h : above = .root
    · rw [h, hroot, List.mem_singleton] at hrule
      rw [hrule]
    by_cases hb : above = .ofComponents [['b']]
    · rw [hb, hinner, List.mem_singleton] at hrule
      rw [hrule]
    · simp [Source.rulesAt, nestedSource, h, hb] at hrule
  have hignored : (checker.resolve nestedSource (.ofComponents [['b']])).value.isIgnored = true := by
    have hcovers : Rule.covers ⟨['b'], false, false, true, some [.literal 'b']⟩ ['b']
        (nestedSource.countsAsDirectory (.ofComponents [['b']])) = true := by
      rw [Rule.covers_eq_any rfl]
      decide
    have hdecision := @decisionAt_of_singleton nestedSource (.ofComponents [['b']]) 0 _ hroot hcovers
    have hdepth : (List.range (TreePath.ofComponents [['b']]).depth).reverse = [0] := by decide
    rw [resolve_new_value, judge_value_of_not_metadata (by decide) (by decide), hdepth,
      List.findSome?_cons, hdecision]
    rfl
  exact ⟨hin, hignored, isIgnored_beneath ⟨[]⟩ .standard nestedSource (by decide) hin hrules []
    [.rulesAt .root, .resolve path] hignored⟩

end PathIgnore
