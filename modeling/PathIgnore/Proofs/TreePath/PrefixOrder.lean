import Mathlib.Logic.Relation
import PathIgnore.Proofs.TreePath.Containment
import PathIgnore.Proofs.TreePath.WayUp

/-!
# The order of containment

Among paths in normal form, a directory contains a path just if its names are the first names of the
path (`IsNormal.contains_iff_isPrefix`), or if the path leads up to it from parent to parent
(`IsNormal.contains_iff_leadsUpTo`); what is seen of the path is made of the names that are left.
Main statement: with this, containment is an order in which the directories that contain one path
are comparable (`contains_prefix_order`).
-/

namespace PathIgnore.TreePath

/-- Whether going to the directory that holds a path, any number of times, leads to the directory. -/
def LeadsUpTo (path directory : TreePath) : Prop :=
  Relation.ReflTransGen (fun lower upper => lower.parent? = some upper) path directory

variable {path directory other : TreePath} {names : List Text}

/-! ## From parent to parent -/

theorem leadsUpTo_of_mem_selfAndAncestors (hmem : directory ∈ path.selfAndAncestors) :
    path.LeadsUpTo directory := by
  induction path using parentInduction with
  | top =>
    obtain rfl : directory = root := by simpa using hmem
    exact .refl
  | below path parent hparent ih =>
    rw [selfAndAncestors_of_parent?_eq_some hparent, List.mem_cons] at hmem
    rcases hmem with rfl | hmem
    · exact .refl
    · exact .head hparent (ih hmem)

/-- The directories that a path leads up to are those of its chain of parents. -/
theorem mem_selfAndAncestors_iff : directory ∈ path.selfAndAncestors ↔ path.LeadsUpTo directory := by
  refine ⟨leadsUpTo_of_mem_selfAndAncestors, fun h => ?_⟩
  induction h using Relation.ReflTransGen.head_induction_on with
  | refl => exact mem_selfAndAncestors_self directory
  | head hparent _ ih =>
    rw [selfAndAncestors_of_parent?_eq_some hparent]
    exact List.mem_cons_of_mem _ ih

theorem IsNormal.contains_iff_leadsUpTo (h : path.IsNormal) :
    directory.contains path = true ↔ path.LeadsUpTo directory := by
  rw [h.contains_iff, ← mem_selfAndAncestors_iff, h.selfAndAncestors_eq]
  simp only [List.mem_map, List.mem_reverse, List.mem_range, Nat.lt_add_one_iff]

theorem IsNormal.contains_iff_mem (h : path.IsNormal) :
    directory.contains path = true ↔ directory ∈ path.selfAndAncestors := by
  rw [h.contains_iff_leadsUpTo, mem_selfAndAncestors_iff]

theorem mem_selfAndAncestors_trans (hupper : other ∈ directory.selfAndAncestors)
    (hlower : directory ∈ path.selfAndAncestors) : other ∈ path.selfAndAncestors := by
  rw [mem_selfAndAncestors_iff] at hupper hlower ⊢
  exact hlower.trans hupper

/-- A path lies in just the directories on the way up from its parent. -/
theorem IsNormal.liesIn_iff_mem_of_parent? (h : path.IsNormal) :
    path.LiesIn directory ↔
      ∃ parent, path.parent? = some parent ∧ directory ∈ parent.selfAndAncestors := by
  rw [LiesIn, h.contains_iff_mem]
  cases hparent : path.parent? with
  | none => simp [selfAndAncestors_of_parent?_eq_none hparent, eq_comm]
  | some parent =>
    rw [selfAndAncestors_of_parent?_eq_some hparent, List.mem_cons]
    constructor
    · rintro ⟨rfl | hmem, hne⟩
      · exact absurd rfl hne
      · exact ⟨parent, rfl, hmem⟩
    · rintro ⟨_, ⟨⟩, hmem⟩
      exact ⟨.inr hmem, (ne_of_mem_of_parent? hparent hmem).symm⟩

/-! ## By names -/

theorem IsNormal.contains_iff_isPrefix (h : path.IsNormal) (hdirectory : directory.IsNormal) :
    directory.contains path = true ↔ directory.components <+: path.components := by
  rw [h.contains_iff]
  constructor
  · rintro ⟨k, -, rfl⟩
    rw [h.components_ancestorAt]
    exact List.take_prefix k path.components
  · intro hbegins
    refine ⟨directory.depth, hbegins.length_le, ?_⟩
    rw [ancestorAt, depth, ← List.prefix_iff_eq_take.1 hbegins, hdirectory.ofComponents_components]

theorem IsNormal.eq_of_components_eq (h : path.IsNormal) (hother : other.IsNormal)
    (hcomponents : path.components = other.components) : path = other := by
  rw [← h.ofComponents_components, hcomponents, hother.ofComponents_components]

/-- From a directory, the names are seen that lead on from there. -/
theorem IsNormal.relativeTo?_of_components_eq (h : path.IsNormal) (hdirectory : directory.IsNormal)
    (hnames : path.components = directory.components ++ names) :
    path.relativeTo? directory = some (['/'].intercalate names) := by
  have hview := relativeTo?_ofComponents_append (ne_nil_of_isName hdirectory.isName) names
  rwa [← hnames, h.ofComponents_components, hdirectory.ofComponents_components] at hview

theorem IsNormal.isName_of_components_eq (h : path.IsNormal)
    (hnames : path.components = directory.components ++ names) : ∀ name ∈ names, IsName name :=
  fun name hname => h.isName name (hnames ▸ List.mem_append_right _ hname)

theorem IsNormal.view_eq_nil_iff (h : path.IsNormal) (hdirectory : directory.IsNormal)
    (hnames : path.components = directory.components ++ names) :
    ['/'].intercalate names = [] ↔ directory = path := by
  rw [intercalate_eq_nil_iff (ne_nil_of_isName (h.isName_of_components_eq hnames))]
  constructor
  · rintro rfl
    rw [List.append_nil] at hnames
    exact hdirectory.eq_of_components_eq h hnames.symm
  · rintro rfl
    exact List.self_eq_append_right.1 hnames

/-- What is seen from a directory leads from there to the path. -/
theorem IsNormal.join_of_components_eq (h : path.IsNormal) (hdirectory : directory.IsNormal)
    (hnames : path.components = directory.components ++ names) (hne : names ≠ []) :
    directory.join (['/'].intercalate names) = path := by
  have hslash := slash_not_mem_of_isName (h.isName_of_components_eq hnames)
  have hjoin := join_ofComponents_intercalate (ne_nil_of_isName hdirectory.isName) hne hslash
  rwa [← hnames, h.ofComponents_components, hdirectory.ofComponents_components] at hjoin

/-! ## By texts -/

/-- A path is seen from a directory if its text starts with that of the directory, up to the end of
a name. -/
theorem IsNormal.relativeTo?_eq_some_iff (h : path.IsNormal) (hdirectory : directory.IsNormal)
    (hroot : directory ≠ root) {view : Text} :
    path.relativeTo? directory = some view ↔
      path.text = directory.text ∧ view = [] ∨ path.text = directory.text ++ '/' :: view := by
  constructor
  · intro hview
    have hcontains : directory.contains path = true := by simp [contains, hview]
    obtain ⟨k, hk, rfl⟩ := h.contains_iff.1 hcontains
    rw [relativeTo?_ancestorAt h, Option.some_inj] at hview
    -- Either something of the path is left, or the directory is the path itself.
    rcases Nat.lt_or_eq_of_le hk with hlt | rfl
    · have hpos : 0 < k := by
        rw [Nat.pos_iff_ne_zero]
        rintro rfl
        exact hroot rfl
      exact .inr ((h.text_eq_append_iff_exists hdirectory hroot).2 ⟨k, hpos, hlt, rfl, hview⟩)
    · rw [h.viewFrom_eq_nil_iff.2 (Nat.le_refl _)] at hview
      exact .inl ⟨by rw [h.ancestorAt_depth], hview.symm⟩
  · rintro (⟨htext, rfl⟩ | htext)
    · have hread := h.parse_text
      rw [htext, hdirectory.parse_text, Except.ok.injEq] at hread
      rw [hread, h.relativeTo?_of_components_eq h (List.append_nil _).symm]
      rfl
    · obtain ⟨k, -, -, rfl, rfl⟩ := (h.text_eq_append_iff_exists hdirectory hroot).1 htext
      exact relativeTo?_ancestorAt h k

/-! ## The order -/

theorem IsNormal.contains_self (h : path.IsNormal) : path.contains path = true :=
  (h.contains_iff_isPrefix h).2 List.prefix_rfl

theorem IsNormal.eq_of_contains (h : path.IsNormal) (hother : other.IsNormal)
    (hbelow : path.contains other = true) (habove : other.contains path = true) : path = other := by
  rw [hother.contains_iff_isPrefix h] at hbelow
  rw [h.contains_iff_isPrefix hother] at habove
  have hlength := Nat.le_antisymm hbelow.length_le habove.length_le
  exact h.eq_of_components_eq hother (hbelow.eq_of_length hlength)

theorem IsNormal.contains_trans (h : path.IsNormal) (hdirectory : directory.IsNormal)
    (hother : other.IsNormal) (hupper : other.contains directory = true)
    (hlower : directory.contains path = true) : other.contains path = true := by
  rw [hdirectory.contains_iff_isPrefix hother] at hupper
  rw [h.contains_iff_isPrefix hdirectory] at hlower
  exact (h.contains_iff_isPrefix hother).2 (hupper.trans hlower)

/-- Of two directories that contain a path, one contains the other. -/
theorem IsNormal.contains_or_contains (h : path.IsNormal) (hdirectory : directory.IsNormal)
    (hother : other.IsNormal) (hin : directory.contains path = true)
    (hin' : other.contains path = true) :
    directory.contains other = true ∨ other.contains directory = true := by
  rw [h.contains_iff_isPrefix hdirectory] at hin
  rw [h.contains_iff_isPrefix hother] at hin'
  rw [hother.contains_iff_isPrefix hdirectory, hdirectory.contains_iff_isPrefix hother]
  exact List.prefix_or_prefix_of_prefix hin hin'

/-- A directory contains a path if its names are the first ones of the path; the others, with
slashes between them, are what is seen of the path, and lead from the directory to it. Containment
is an order, and the directories that contain a path are the path, its parent and so on up to the
root. -/
theorem contains_prefix_order :
    (∀ directory path : TreePath, directory.IsNormal → path.IsNormal →
      (directory.contains path = true ↔ directory.components <+: path.components) ∧
        (∀ names, path.components = directory.components ++ names →
          path.relativeTo? directory = some (['/'].intercalate names) ∧
            (['/'].intercalate names = [] ↔ directory = path) ∧
            (['/'].intercalate names ≠ [] →
              directory.join (['/'].intercalate names) = path)) ∧
        (¬directory.components <+: path.components → path.relativeTo? directory = none) ∧
        (directory ≠ root → ∀ view, path.relativeTo? directory = some view ↔
          path.text = directory.text ∧ view = [] ∨ path.text = directory.text ++ '/' :: view) ∧
        (directory.contains path = true ↔ path.LeadsUpTo directory)) ∧
      (∀ path : TreePath, path.IsNormal → path.contains path = true) ∧
      (∀ path other : TreePath, path.IsNormal → other.IsNormal →
        path.contains other = true → other.contains path = true → path = other) ∧
      (∀ upper directory path : TreePath, upper.IsNormal → directory.IsNormal → path.IsNormal →
        upper.contains directory = true → directory.contains path = true →
          upper.contains path = true) ∧
      ∀ directory other path : TreePath, directory.IsNormal → other.IsNormal → path.IsNormal →
        directory.contains path = true → other.contains path = true →
          directory.contains other = true ∨ other.contains directory = true := by
  refine ⟨fun directory path hdirectory h => ⟨h.contains_iff_isPrefix hdirectory, ?_, ?_, ?_,
    h.contains_iff_leadsUpTo⟩, fun _ h => h.contains_self,
    fun _ _ h hother => h.eq_of_contains hother,
    fun _ _ _ hupper hdirectory h => h.contains_trans hdirectory hupper,
    fun _ _ _ hdirectory hother h => h.contains_or_contains hdirectory hother⟩
  · intro names hnames
    refine ⟨h.relativeTo?_of_components_eq hdirectory hnames,
      h.view_eq_nil_iff hdirectory hnames, fun hview => ?_⟩
    refine h.join_of_components_eq hdirectory hnames ?_
    rintro rfl
    exact hview rfl
  · intro hbegins
    rw [← h.contains_iff_isPrefix hdirectory, contains, Bool.not_eq_true] at hbegins
    exact Option.isNone_iff_eq_none.1 (Option.isSome_eq_false_iff.1 hbegins)
  · intro hroot view
    exact h.relativeTo?_eq_some_iff hdirectory hroot

/-- The text of `folder/a/b` starts with `fold`, but its names do not. -/
theorem contains_prefix_order_folder :
    let fold := ofComponents ["fold".toList]
    let folder := ofComponents ["folder".toList]
    let path := ofComponents ["folder".toList, ['a'], ['b']]
    fold.IsNormal ∧ folder.IsNormal ∧ path.IsNormal ∧
      folder.contains path = true ∧ path.relativeTo? folder = some "a/b".toList ∧
      folder.join "a/b".toList = path ∧ path.LeadsUpTo folder ∧
      (root.contains folder = true ∨ folder.contains root = true) ∧
      fold.contains path = false ∧ path.relativeTo? fold = none := by
  intro fold folder path
  have hfold : fold.IsNormal := by decide
  have hfolder : folder.IsNormal := by decide
  have hpath : path.IsNormal := by decide
  obtain ⟨hpairs, -, -, -, hcomparable⟩ := contains_prefix_order
  obtain ⟨hbegins, hview, -, -, hup⟩ := hpairs folder path hfolder hpath
  obtain ⟨hbegins', -, hnone, -⟩ := hpairs fold path hfold hpath
  obtain ⟨hseen, -, hjoin⟩ := hview [['a'], ['b']] (by decide)
  have hcontains : folder.contains path = true := hbegins.2 (by decide)
  refine ⟨hfold, hfolder, hpath, hcontains, hseen, hjoin (by decide), hup.1 hcontains, ?_, ?_, ?_⟩
  · exact hcomparable root folder path isNormal_root hfolder hpath rfl hcontains
  · rw [← Bool.not_eq_true, hbegins']
    decide
  · exact hnone (by decide)

end PathIgnore.TreePath
