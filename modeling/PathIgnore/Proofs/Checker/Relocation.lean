import PathIgnore.Proofs.Checker.Rebase
import PathIgnore.Proofs.TreePath.Containment

/-!
# A tree inside a tree

What lies in a directory is a tree by itself. Deciding about a path of that tree is deciding about
the place where the path stands in the whole one, if no directory that the tree lies in has a say:
every step of the climb is relative (`lineage_descend`, `decision?_beneath`).
-/

namespace PathIgnore

namespace TreePath

/-- The place that a path leads to when it is taken from a directory. -/
def descend (directory path : TreePath) : TreePath :=
  if path.isRoot then directory else directory.join path.text

section

variable {directory path : TreePath}

theorem IsNormal.descend_eq (hdirectory : directory.IsNormal) (hpath : path.IsNormal) :
    directory.descend path = ofComponents (directory.components ++ path.components) := by
  unfold descend
  split
  · rename_i hroot
    rw [isRoot_eq_true_iff.1 hroot, components_root, List.append_nil,
      hdirectory.ofComponents_components]
  · rename_i hpathRoot
    have hne : path ≠ root := fun heq => hpathRoot (isRoot_eq_true_iff.2 heq)
    have hjoin := join_ofComponents_intercalate (ne_nil_of_isName hdirectory.isName)
      (hpath.components_ne_nil hne) (slash_not_mem_of_isName hpath.isName)
    rwa [hdirectory.ofComponents_components, hpath.intercalate_components] at hjoin

theorem IsNormal.isName_append (hdirectory : directory.IsNormal) (hpath : path.IsNormal) :
    ∀ name ∈ directory.components ++ path.components, IsName name := by
  intro name hname
  rcases List.mem_append.1 hname with hname | hname
  · exact hdirectory.isName name hname
  · exact hpath.isName name hname

theorem IsNormal.descend (hdirectory : directory.IsNormal) (hpath : path.IsNormal) :
    (directory.descend path).IsNormal := by
  rw [hdirectory.descend_eq hpath]
  exact isNormal_ofComponents (hdirectory.isName_append hpath)

theorem IsNormal.components_descend (hdirectory : directory.IsNormal) (hpath : path.IsNormal) :
    (directory.descend path).components = directory.components ++ path.components := by
  rw [hdirectory.descend_eq hpath]
  exact components_ofComponents (ne_nil_of_isName (hdirectory.isName_append hpath))

theorem IsNormal.descend_ne_root (hdirectory : directory.IsNormal) (hpath : path.IsNormal)
    (hroot : path ≠ root) : directory.descend path ≠ root := by
  intro heq
  have hnil := hdirectory.components_descend hpath
  rw [heq, components_root] at hnil
  exact hpath.components_ne_nil hroot (List.append_eq_nil_iff.1 hnil.symm).2

/-- The directories on the way on from the directory are those on the way to the path. -/
theorem IsNormal.ancestorAt_descend (hdirectory : directory.IsNormal) (hpath : path.IsNormal)
    (k : Nat) :
    (directory.descend path).ancestorAt (directory.depth + k) =
      directory.descend (path.ancestorAt k) := by
  rw [hdirectory.descend_eq (isNormal_ancestorAt hpath k), hpath.components_ancestorAt, ancestorAt,
    hdirectory.components_descend hpath, depth, List.take_length_add_append]

theorem IsNormal.viewFrom_descend (hdirectory : directory.IsNormal) (hpath : path.IsNormal)
    (k : Nat) :
    (directory.descend path).viewFrom (directory.depth + k) = path.viewFrom k := by
  rw [viewFrom, hdirectory.components_descend hpath, depth, List.drop_length_add_append, viewFrom]

/-- The directories on the way to the directory are those that it lies in. -/
theorem IsNormal.ancestorAt_descend_of_le (hdirectory : directory.IsNormal) (hpath : path.IsNormal)
    {k : Nat} (hk : k ≤ directory.depth) :
    (directory.descend path).ancestorAt k = directory.ancestorAt k := by
  rw [ancestorAt, hdirectory.components_descend hpath, List.take_append_of_le_length hk, ancestorAt]

theorem IsNormal.directoryNames_descend (hdirectory : directory.IsNormal) (hpath : path.IsNormal)
    (hroot : path ≠ root) (isDirectory : Bool) :
    (directory.descend path).directoryNames isDirectory =
      directory.components ++ path.directoryNames isDirectory := by
  unfold directoryNames
  rw [hdirectory.components_descend hpath]
  split
  · rfl
  · exact List.dropLast_append_of_ne_nil (hpath.components_ne_nil hroot)

end

end TreePath

/-- The tree that lies in a directory, by itself. -/
def Source.below (source : Source) (directory : TreePath) : Source where
  linesAt path := source.linesAt (directory.descend path)
  isDirectory path := source.isDirectory (directory.descend path)

/-- A directory of a lineage as it stands in the tree that another directory lies in. -/
def Ancestor.beneath (directory : TreePath) (ancestor : Ancestor) : Ancestor :=
  { ancestor with path := directory.descend ancestor.path }

/-- The decision of a tree that lies in a directory, said about the whole tree. -/
def Decision.beneath (directory : TreePath) (decision : Decision) : Decision :=
  { decision with directory := decision.directory.map directory.descend }

variable {source : Source} {metadataName : Text} {directory path : TreePath}

/-- The lineage goes the way that it goes in the directory, and on above the directory. -/
theorem TreePath.IsNormal.lineage_descend (hdirectory : directory.IsNormal) (hpath : path.IsNormal)
    (hroot : path ≠ .root) (hmetadata : metadataName ∉ directory.components) (isDirectory : Bool) :
    (directory.descend path).lineage isDirectory metadataName =
      (path.lineage isDirectory metadataName).map (Ancestor.beneath directory) ++
        (List.range directory.depth).reverse.map
          ((directory.descend path).ancestor metadataName) := by
  rw [(hdirectory.descend hpath).lineage_eq, hpath.lineage_eq,
    hdirectory.directoryNames_descend hpath hroot, List.length_append, Nat.add_assoc,
    List.range_add, List.reverse_append, List.map_append, ← List.map_reverse, List.map_map,
    List.map_map]
  congr 1
  refine List.map_congr_left fun k _ => ?_
  have hflag : ((directory.descend path).components.take (directory.components.length + k)).contains
      metadataName = (path.components.take k).contains metadataName := by
    rw [hdirectory.components_descend hpath, List.take_length_add_append, List.contains_append,
      List.contains_eq_mem, decide_eq_false hmetadata, Bool.false_or]
  simp only [Function.comp_apply, ancestor, Ancestor.beneath, hflag]
  exact congrArg₂ (Ancestor.mk · _ ·) (hdirectory.ancestorAt_descend hpath k)
    (hdirectory.viewFrom_descend hpath k)

theorem decision?_beneath (isDirectory : Bool) (ancestor : Ancestor) :
    (ancestor.beneath directory).decision? source isDirectory =
      (ancestor.decision? (source.below directory) isDirectory).map
        (Decision.beneath directory) := by
  unfold Ancestor.decision?
  cases hm : ancestor.metadata with
  | true =>
    rw [Ancestor.beneath, hm]
    rfl
  | false =>
    rw [Ancestor.beneath, hm, if_neg Bool.false_ne_true, if_neg Bool.false_ne_true, Option.map_map]
    rfl

/-- The directories that the directory lies in have no opinion. -/
theorem decision?_above (hdirectory : directory.IsNormal) (hpath : path.IsNormal)
    (hmetadata : metadataName ∉ directory.components)
    (hrules : ∀ above, directory.LiesIn above → source.rulesAt above = []) {k : Nat}
    (hk : k < directory.depth) (isDirectory : Bool) :
    ((directory.descend path).ancestor metadataName k).decision? source isDirectory = none := by
  have hflag : ((directory.descend path).components.take k).contains metadataName = false := by
    rw [hdirectory.components_descend hpath, List.take_append_of_le_length (Nat.le_of_lt hk),
      List.contains_eq_mem, decide_eq_false_iff_not]
    exact fun hmem => hmetadata (List.mem_of_mem_take hmem)
  have hnone : source.rulesAt (directory.ancestorAt k) = [] :=
    hrules _ (hdirectory.liesIn_iff.2 ⟨k, hk, rfl⟩)
  simp only [Ancestor.decision?, TreePath.ancestor, hflag, Bool.false_eq_true, if_false,
    hdirectory.ancestorAt_descend_of_le hpath (Nat.le_of_lt hk), hnone, Rules.lastMatch?_nil,
    Option.map_none]

/-- The climb in the whole tree comes to the decision of the climb in the directory. -/
theorem findSome?_lineage_descend (hdirectory : directory.IsNormal) (hpath : path.IsNormal)
    (hroot : path ≠ .root) (hmetadata : metadataName ∉ directory.components)
    (hrules : ∀ above, directory.LiesIn above → source.rulesAt above = []) (isDirectory : Bool) :
    ((directory.descend path).lineage isDirectory metadataName).findSome?
        (Ancestor.decision? source isDirectory) =
      ((path.lineage isDirectory metadataName).findSome?
        (Ancestor.decision? (source.below directory) isDirectory)).map
          (Decision.beneath directory) := by
  have hbelow : Ancestor.decision? source isDirectory ∘ Ancestor.beneath directory =
      Option.map (Decision.beneath directory) ∘
        Ancestor.decision? (source.below directory) isDirectory :=
    funext (decision?_beneath isDirectory)
  have habove : ((List.range directory.depth).reverse.map
      ((directory.descend path).ancestor metadataName)).findSome?
        (Ancestor.decision? source isDirectory) = none := by
    rw [List.findSome?_eq_none_iff]
    intro ancestor hmem
    obtain ⟨k, hk, rfl⟩ := List.mem_map.1 hmem
    rw [List.mem_reverse, List.mem_range] at hk
    exact decision?_above hdirectory hpath hmetadata hrules hk isDirectory
  rw [hdirectory.lineage_descend hpath hroot hmetadata, List.findSome?_append, habove,
    Option.or_none, List.findSome?_map, hbelow, ← List.map_findSome?]

theorem judge_descend (hdirectory : directory.IsNormal) (hpath : path.IsNormal)
    (hroot : path ≠ .root) (hmetadata : metadataName ∉ directory.components)
    (hrules : ∀ above, directory.LiesIn above → source.rulesAt above = []) :
    (judge source metadataName (directory.descend path) none).value =
      (judge (source.below directory) metadataName path none).value.beneath directory := by
  have hpathRoot : path.isRoot = false := TreePath.isRoot_eq_false hroot
  have hdescendRoot : (directory.descend path).isRoot = false :=
    TreePath.isRoot_eq_false (hdirectory.descend_ne_root hpath hroot)
  have hisDirectory : (source.below directory).isDirectory path =
      source.isDirectory (directory.descend path) := rfl
  unfold judge
  simp only [Outcome.before, hpathRoot, hdescendRoot, Bool.false_or, climb_none_value,
    findSome?_lineage_descend hdirectory hpath hroot hmetadata hrules, hisDirectory]
  exact Option.getD_map (Decision.beneath directory) .undecided _

/-- Where a tree stands does not matter. If no directory that `directory` lies in has a rule, and
`directory` is not in a metadata directory, the decision about a place below `directory` is the one
that the tree inside it leads to, with the directory that decides taken from `directory`. -/
theorem resolve_descend (root otherRoot : NativePath) (settings : Settings) (source : Source)
    {directory path : TreePath} (hdirectory : directory.IsNormal) (hpath : path.IsNormal)
    (hroot : path ≠ .root) (hmetadata : settings.metadataName ∉ directory.components)
    (hrules : ∀ above, directory.LiesIn above → source.rulesAt above = []) :
    let outer := ((Checker.new root settings).resolve source (directory.descend path)).value
    let inner := ((Checker.new otherRoot settings).resolve (source.below directory) path).value
    outer.verdict = inner.verdict ∧ outer.rule = inner.rule ∧
      outer.directory = inner.directory.map directory.descend := by
  simp only [resolve_new_value, judge_descend hdirectory hpath hroot hmetadata hrules]
  exact ⟨rfl, rfl, rfl⟩

/-- The only rule file is that of `a/b`. From inside `a`, it is that of `b`. -/
theorem resolve_descend_single :
    let source := Source.ofRuleFiles (fun _ => false) [(.ofComponents [['a'], ['b']], [['k']])]
    let directory := TreePath.ofComponents [['a']]
    let path := TreePath.ofComponents [['b'], ['k']]
    let outer := ((Checker.new ⟨[]⟩ .standard).resolve source (directory.descend path)).value
    let inner := ((Checker.new ⟨[]⟩ .standard).resolve (source.below directory) path).value
    directory.descend path = .ofComponents [['a'], ['b'], ['k']] ∧
      inner.directory = some (.ofComponents [['b']]) ∧
      outer.verdict = inner.verdict ∧ outer.rule = inner.rule ∧
      outer.directory = some (.ofComponents [['a'], ['b']]) := by
  intro source directory path outer inner
  have hrules : ∀ above, directory.LiesIn above → source.rulesAt above = [] := by
    intro above hin
    have hne : above ≠ .ofComponents [['a'], ['b']] := by
      rintro rfl
      revert hin
      decide
    rw [Source.rulesAt_ofRuleFiles, lookup_cons_of_ne hne]
    rfl
  have hinner : inner.directory = some (.ofComponents [['b']]) := by
    have hcovers : Rule.covers ⟨['k'], false, false, false, some [.literal 'k']⟩
        (path.viewFrom 1) ((source.below directory).countsAsDirectory path) = true := by
      rw [Rule.covers_eq_any rfl]
      decide
    have hvalue : inner = (judge (source.below directory) _ path none).value :=
      resolve_new_value ⟨[]⟩ .standard (source.below directory) path
    rw [hvalue, judge_value_of_decisionAt (by decide) (by decide) (by decide)
      (decisionAt_of_singleton (by decide) hcovers) (by decide)]
    rfl
  obtain ⟨hverdict, hrule, hdirectory⟩ := resolve_descend ⟨[]⟩ ⟨[]⟩ .standard source
    (by decide : directory.IsNormal) (by decide : path.IsNormal) (by decide) (by decide) hrules
  refine ⟨by decide, hinner, hverdict, hrule, hdirectory.trans ?_⟩
  rw [hinner]
  decide

end PathIgnore
