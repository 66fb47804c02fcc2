import Std.Data.HashMap
import PathIgnore.Rules
import PathIgnore.TreePath

/-!
# Stores of rules

A store keeps the rules of a directory once they have been loaded. What was loaded first stays until
the store is cleared; a load that gave nothing is tried again.
-/

namespace PathIgnore

/-- The rules that have been loaded, by directory. -/
structure Store where
  entries : Std.HashMap TreePath Rules

namespace Store

/-- The store that keeps nothing. -/
def empty : Store := ⟨∅⟩

/-- The rules kept for a directory. -/
def get? (store : Store) (directory : TreePath) : Option Rules :=
  store.entries[directory]?

/-- How many directories the store keeps rules for. -/
def size (store : Store) : Nat :=
  store.entries.size

/-- Whether the store keeps nothing. -/
def isEmpty (store : Store) : Bool :=
  store.entries.isEmpty

/-- The store with the rules of one more directory. -/
def insert (store : Store) (directory : TreePath) (rules : Rules) : Store :=
  ⟨store.entries.insert directory rules⟩

/-- What a store answers when asked to load what it does not keep. -/
structure Fetched (α : Type) where
  rules : Rules
  /-- What the loader reported, if it was called. -/
  report : Option α
  store : Store

/-- The rules of a directory. They are loaded only if the store has none; a load that gives nothing
counts as no rules, and is not kept. -/
def getOrLoad {α : Type} (store : Store) (directory : TreePath)
    (load : Unit → Option Rules × α) : Fetched α :=
  match store.get? directory with
  | some rules => ⟨rules, none, store⟩
  | none =>
    match load () with
    | (some rules, report) => ⟨rules, some report, store.insert directory rules⟩
    | (none, report) => ⟨[], some report, store⟩

@[simp] theorem get?_empty (directory : TreePath) : empty.get? directory = none := by
  simp [get?, empty]

@[simp] theorem get?_insert_self (store : Store) (directory : TreePath) (rules : Rules) :
    (store.insert directory rules).get? directory = some rules := by
  simp [get?, insert]

theorem get?_insert_of_ne (store : Store) {directory other : TreePath} (h : other ≠ directory)
    (rules : Rules) : (store.insert directory rules).get? other = store.get? other := by
  simp [get?, insert, Std.HashMap.getElem?_insert, h.symm]

theorem getOrLoad_of_get?_eq_some {α : Type} {store : Store} {directory : TreePath}
    {rules : Rules} (h : store.get? directory = some rules) (load : Unit → Option Rules × α) :
    store.getOrLoad directory load = ⟨rules, none, store⟩ := by
  simp [getOrLoad, h]

theorem getOrLoad_of_get?_eq_none {α : Type} {store : Store} {directory : TreePath}
    (h : store.get? directory = none) (load : Unit → Option Rules × α) :
    store.getOrLoad directory load =
      ⟨(load ()).1.getD [], some (load ()).2,
        ((load ()).1.map (store.insert directory)).getD store⟩ := by
  rcases hload : load () with ⟨_ | rules, report⟩ <;> simp [getOrLoad, h, hload]

section

variable {α : Type} (store : Store) (directory : TreePath) (load : Unit → Option Rules × α)

/-- The loader is called unless the rules are kept. -/
theorem report_getOrLoad :
    (store.getOrLoad directory load).report =
      if (store.get? directory).isSome then none else some (load ()).2 := by
  cases hkept : store.get? directory with
  | some rules => simp [getOrLoad_of_get?_eq_some hkept]
  | none => simp [getOrLoad_of_get?_eq_none hkept]

/-- What the loader gives is kept, unless there is something already. -/
@[simp] theorem get?_getOrLoad_self :
    (store.getOrLoad directory load).store.get? directory =
      (store.get? directory).or (load ()).1 := by
  cases hkept : store.get? directory with
  | some rules => simp [getOrLoad_of_get?_eq_some hkept, hkept]
  | none =>
    rw [getOrLoad_of_get?_eq_none hkept]
    cases (load ()).1 <;> simp [hkept]

theorem get?_getOrLoad_of_ne {other : TreePath} (h : other ≠ directory) :
    (store.getOrLoad directory load).store.get? other = store.get? other := by
  cases hkept : store.get? directory with
  | some rules => rw [getOrLoad_of_get?_eq_some hkept]
  | none =>
    rw [getOrLoad_of_get?_eq_none hkept]
    cases (load ()).1 <;> simp [get?_insert_of_ne store h]

/-- The answer is what is kept afterwards. -/
theorem rules_getOrLoad :
    (store.getOrLoad directory load).rules =
      ((store.getOrLoad directory load).store.get? directory).getD [] := by
  rw [get?_getOrLoad_self]
  cases hkept : store.get? directory with
  | some rules => simp [getOrLoad_of_get?_eq_some hkept]
  | none => simp [getOrLoad_of_get?_eq_none hkept]

end

end Store

end PathIgnore
