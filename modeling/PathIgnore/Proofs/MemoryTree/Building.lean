import PathIgnore.MemoryTree

/-!
# Building a tree in memory

A tree is built from the empty one by changes that each name a place. Such a change cannot fail, so
the build comes to a tree, which is found by adding what each change adds (`build_eq_ok`).
-/

namespace PathIgnore.MemoryTree

/-- The place that a change names, if its text is that of a path. Starting again names no place. -/
def Change.place? : Change → Option TreePath
  | .ruleFile name _ | .directory name | .file name | .unreadable name =>
    (TreePath.parse name).toOption
  | .reset => none

/-- The tree after changes to the empty one, unless one of them is invalid. -/
def build (changes : List Change) : Except PathError MemoryTree :=
  changes.foldlM apply .empty

/-- The tree with what a change adds at the place that it names. -/
def add (tree : MemoryTree) (change : Change) : MemoryTree :=
  match change, change.place? with
  | .ruleFile _ text, some place => tree.addRuleFile place text
  | .directory _, some place => tree.addDirectory place
  | .file _, some place => tree.addFile place
  | .unreadable _, some place => tree.addUnreadable place
  | _, _ => tree

variable {change : Change} {changes : List Change} {place : TreePath} {name : Text}

theorem toOption_parse_eq_some_iff :
    (TreePath.parse name).toOption = some place ↔ TreePath.parse name = .ok place := by
  cases TreePath.parse name <;> simp [Except.toOption]

theorem apply_eq_ok (tree : MemoryTree) (h : change.place?.isSome) :
    tree.apply change = .ok (tree.add change) := by
  obtain ⟨place, hplace⟩ := Option.isSome_iff_exists.1 h
  unfold add
  rw [hplace]
  cases change with
  | reset => cases hplace
  | ruleFile | directory | file | unreadable =>
    have hread := toOption_parse_eq_some_iff.1 hplace
    rw [apply, hread]
    rfl

theorem foldlM_apply_eq_ok (tree : MemoryTree) (h : ∀ change ∈ changes, change.place?.isSome) :
    changes.foldlM apply tree = .ok (changes.foldl add tree) := by
  induction changes generalizing tree with
  | nil => rfl
  | cons change rest ih =>
    obtain ⟨hchange, hrest⟩ := List.forall_mem_cons.1 h
    rw [List.foldlM_cons, apply_eq_ok tree hchange]
    exact ih (tree.add change) hrest

/-- Changes that name places build a tree. -/
theorem build_eq_ok (h : ∀ change ∈ changes, change.place?.isSome) :
    build changes = .ok (changes.foldl add .empty) :=
  foldlM_apply_eq_ok .empty h

end PathIgnore.MemoryTree
