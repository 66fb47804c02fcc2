import PathIgnore.Proofs.Checker.KeptRules
import PathIgnore.Proofs.Checker.Opinions
import PathIgnore.Proofs.Rules.Rebase

/-!
# Two rule files or one

The rule file of a directory takes precedence over that of the root because it is nearer; its rules,
moved to the end of the root's rule file, because they come later. The verdict is the same.
-/

namespace PathIgnore

/-- The tree with these rule files and no others. -/
def Source.ofRuleFiles (isDirectory : TreePath → Bool) (files : List (TreePath × List Text)) :
    Source where
  linesAt directory := .ok (files.lookup directory)
  isDirectory := isDirectory

theorem lookup_cons_of_ne {directory other : TreePath} (h : directory ≠ other) (lines : List Text)
    (files : List (TreePath × List Text)) :
    ((other, lines) :: files).lookup directory = files.lookup directory := by
  rw [List.lookup_cons, beq_false_of_ne h]

theorem Source.rulesAt_ofRuleFiles (isDirectory : TreePath → Bool)
    (files : List (TreePath × List Text)) (directory : TreePath) :
    (Source.ofRuleFiles isDirectory files).rulesAt directory =
      rulesOfLines (files.lookup directory) := by
  simp only [Source.rulesAt, Source.ofRuleFiles]
  cases files.lookup directory <;> rfl

section

variable {isDirectory : TreePath → Bool} {files : List (TreePath × List Text)} {path : TreePath}

/-- A directory without a rule file has no opinion. -/
theorem verdictAt_of_lookup_eq_none {k : Nat} (h : files.lookup (path.ancestorAt k) = none) :
    (Source.ofRuleFiles isDirectory files).verdictAt path k = none := by
  unfold Source.verdictAt
  rw [Source.rulesAt_ofRuleFiles, h]
  rfl

theorem verdictAt_of_lookup_eq_some {k : Nat} {lines : List Text}
    (h : files.lookup (path.ancestorAt k) = some lines) :
    (Source.ofRuleFiles isDirectory files).verdictAt path k =
      ((Rules.ofLines lines).lastMatch? (path.viewFrom k)
        (path.isRoot || isDirectory path)).map Rule.verdict := by
  unfold Source.verdictAt
  rw [Source.rulesAt_ofRuleFiles, h]
  rfl

/-! ## Who has an opinion -/

variable {directory : TreePath} {first lines : List Text}

theorem findSome?_verdictAt_flat (h : path.IsNormal) (hdepth : 0 < path.depth) :
    (List.range path.depth).reverse.findSome?
        ((Source.ofRuleFiles isDirectory [(.root, lines)]).verdictAt path) =
      ((Rules.ofLines lines).lastMatch? path.text
        (path.isRoot || isDirectory path)).map Rule.verdict := by
  rw [findSome?_reverse_range_eq_or hdepth, Option.or_self, verdictAt_of_lookup_eq_some rfl,
    h.viewFrom_zero]
  intro k hpos hk _
  apply verdictAt_of_lookup_eq_none
  rw [lookup_cons_of_ne (h.ancestorAt_ne_root hpos hk), List.lookup_nil]

theorem findSome?_verdictAt_nested (h : path.IsNormal) {k : Nat} (hpos : 0 < k)
    (hk : k < path.depth) :
    (List.range path.depth).reverse.findSome?
        ((Source.ofRuleFiles isDirectory
          [(.root, first), (path.ancestorAt k, lines)]).verdictAt path) =
      (((Rules.ofLines lines).lastMatch? (path.viewFrom k)
          (path.isRoot || isDirectory path)).map Rule.verdict).or
        (((Rules.ofLines first).lastMatch? path.text
          (path.isRoot || isDirectory path)).map Rule.verdict) := by
  have hself : [(TreePath.root, first), (path.ancestorAt k, lines)].lookup (path.ancestorAt k) =
      some lines := by
    rw [lookup_cons_of_ne (h.ancestorAt_ne_root hpos hk), List.lookup_cons_self]
  rw [findSome?_reverse_range_eq_or hk, verdictAt_of_lookup_eq_some hself,
    verdictAt_of_lookup_eq_some rfl, h.viewFrom_zero]
  intro l hlpos hl hne
  apply verdictAt_of_lookup_eq_none
  have hother : path.ancestorAt l ≠ path.ancestorAt k := by
    rw [ne_eq, h.ancestorAt_inj (Nat.le_of_lt hl) (Nat.le_of_lt hk)]
    exact hne
  rw [lookup_cons_of_ne (h.ancestorAt_ne_root hlpos hl), lookup_cons_of_ne hother, List.lookup_nil]

theorem findSome?_verdictAt_nested_of_not_below (h : path.IsNormal) (hdepth : 0 < path.depth)
    (hdirectory : ∀ k, 0 < k → k < path.depth → path.ancestorAt k ≠ directory) :
    (List.range path.depth).reverse.findSome?
        ((Source.ofRuleFiles isDirectory [(.root, first), (directory, lines)]).verdictAt path) =
      ((Rules.ofLines first).lastMatch? path.text
        (path.isRoot || isDirectory path)).map Rule.verdict := by
  rw [findSome?_reverse_range_eq_or hdepth, Option.or_self, verdictAt_of_lookup_eq_some rfl,
    h.viewFrom_zero]
  intro k hpos hk _
  apply verdictAt_of_lookup_eq_none
  rw [lookup_cons_of_ne (h.ancestorAt_ne_root hpos hk), lookup_cons_of_ne (hdirectory k hpos hk),
    List.lookup_nil]

end

/-- With the rules of a directory at the end of the root's rule file, the verdict about every path
is the one that the directory's own rule file leads to. -/
theorem resolve_verdict_rebaseLines (root : NativePath) (settings : Settings)
    (isDirectory : TreePath → Bool) {directory : TreePath} (hdirectory : directory.IsNormal)
    (hroot : directory ≠ .root) (first lines : List Text)
    (hsearchable : AreSearchable directory lines) {path : TreePath} (hpath : path.IsNormal)
    (hline : '\n' ∉ path.text) :
    ((Checker.new root settings).resolve
        (.ofRuleFiles isDirectory [(.root, first), (directory, lines)]) path).value.verdict =
      ((Checker.new root settings).resolve
        (.ofRuleFiles isDirectory
          [(.root, first ++ RuleLine.rebaseLines directory lines)]) path).value.verdict := by
  rw [resolve_new_value, resolve_new_value]
  rcases Classical.em (settings.metadataName ∈
    path.directoryNames (path.isRoot || isDirectory path)) with hmetadata | hmetadata
  · rw [judge_value_of_metadata hpath hmetadata, judge_value_of_metadata hpath hmetadata]
    rfl
  rw [judge_verdict_of_not_metadata hpath hmetadata, judge_verdict_of_not_metadata hpath hmetadata]
  apply congrArg (Option.getD · Verdict.noOpinion)
  -- No rule is asked about the root itself.
  rcases Nat.eq_zero_or_pos path.depth with hdepth | hdepth
  · rw [hdepth]
    rfl
  rw [findSome?_verdictAt_flat hpath hdepth, ofLines_append_rebaseLines, Rules.lastMatch?_append,
    Option.map_or]
  rcases Classical.em (∃ k, 0 < k ∧ k < path.depth ∧ path.ancestorAt k = directory) with
    ⟨k, hpos, hk, rfl⟩ | hnot
  · have htext : path.text = (path.ancestorAt k).text ++ '/' :: path.viewFrom k :=
      (hpath.text_eq_append_iff_exists hdirectory hroot).2 ⟨k, hpos, hk, rfl, rfl⟩
    have hview : path.viewFrom k ≠ [] := by
      rw [ne_eq, hpath.viewFrom_eq_nil_iff]
      exact Nat.not_le.2 hk
    have hmoved := lastMatch?_rebaseLines_below hsearchable (htext ▸ hline) hview
      (path.isRoot || isDirectory path)
    rw [findSome?_verdictAt_nested hpath hpos hk, ← hmoved, ← htext]
  · have hbelow : ∀ view, path.text ≠ directory.text ++ '/' :: view := by
      intro view hview
      obtain ⟨k, hpos, hk, heq, -⟩ := (hpath.text_eq_append_iff_exists hdirectory hroot).1 hview
      exact hnot ⟨k, hpos, hk, heq⟩
    rw [lastMatch?_rebaseLines_of_not_below hsearchable hline hbelow,
      findSome?_verdictAt_nested_of_not_below hpath hdepth
        fun k hpos hk heq => hnot ⟨k, hpos, hk, heq⟩]
    rfl

/-- A directory `f` that keeps `k` does so from the root as well. -/
theorem resolve_verdict_keep_moved :
    RuleLine.rebaseLines (.ofComponents [['f']]) ["!k".toList] = ["!/\\f/**/k".toList] ∧
      ((Checker.new ⟨[]⟩ .standard).resolve
          (.ofRuleFiles (fun _ => false)
            [(.root, ["*".toList]), (.ofComponents [['f']], ["!k".toList])])
          (.ofComponents [['f'], ['k']])).value.verdict =
        ((Checker.new ⟨[]⟩ .standard).resolve
          (.ofRuleFiles (fun _ => false) [(.root, ["*".toList, "!/\\f/**/k".toList])])
          (.ofComponents [['f'], ['k']])).value.verdict := by
  have hmoved : RuleLine.rebaseLines (.ofComponents [['f']]) ["!k".toList] =
      ["!/\\f/**/k".toList] := by decide
  have hsearchable : AreSearchable (.ofComponents [['f']]) ["!k".toList] := by
    unfold AreSearchable
    decide
  refine ⟨hmoved, ?_⟩
  have hverdict := @resolve_verdict_rebaseLines ⟨[]⟩ .standard (fun _ => false)
    (.ofComponents [['f']]) (by decide) (by decide) ["*".toList] ["!k".toList] hsearchable
    (.ofComponents [['f'], ['k']]) (by decide) (by decide)
  rwa [hmoved] at hverdict

end PathIgnore
