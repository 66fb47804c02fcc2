import Mathlib.Logic.Basic
import PathIgnore.Store

/-!
# First loads

A store in use is asked for the rules of directories, with a loader at hand or without, and cleared
now and then. What was asked and answered tells which loaders have been called since the store was
last cleared, and what they gave. Main statement: at every moment, the store keeps for each
directory the first rules that were given for it, and nothing else (`keeps_first_given`).
-/

namespace PathIgnore.Store

/-- A use of a store. A loader gives rules or nothing, and makes a report. -/
inductive Use (α : Type) where
  | get (directory : TreePath)
  | getOrLoad (directory : TreePath) (load : Unit → Option Rules × α)
  | clear

/-- What a store answers. -/
inductive Reply (α : Type) where
  /-- The rules that are kept, if there are any. -/
  | kept (rules : Option Rules)
  /-- The rules, and the report of the loader if it was called. -/
  | fetched (rules : Rules) (report : Option α)
  | cleared

/-- A call of a loader, and the rules that it gave, if it gave any. -/
structure Call where
  directory : TreePath
  given : Option Rules

variable {α : Type}

/-- The answer to one use, and the store after it. -/
def step (store : Store) : Use α → Reply α × Store
  | .get directory => (.kept (store.get? directory), store)
  | .getOrLoad directory load =>
    let fetched := store.getOrLoad directory load
    (.fetched fetched.rules fetched.report, fetched.store)
  | .clear => (.cleared, .empty)

/-- A run: the uses with their answers, and the store after them. -/
def run (store : Store) : List (Use α) → List (Use α × Reply α) × Store
  | [] => ([], store)
  | use :: rest =>
    let (reply, next) := store.step use
    let (trace, last) := next.run rest
    ((use, reply) :: trace, last)

/-! ## Calls -/

/-- The calls since the store was last cleared, after one more use. A loader was called if its
report is there. -/
def noteCall (calls : List Call) : Use α × Reply α → List Call
  | (.getOrLoad directory load, .fetched _ (some _)) => calls ++ [⟨directory, (load ()).1⟩]
  | (.clear, _) => []
  | _ => calls

/-- The calls since the store was last cleared, the first one first. -/
def callsIn (trace : List (Use α × Reply α)) : List Call :=
  trace.foldl noteCall []

/-- The first rules that a call for the directory gave. -/
def firstGiven? (calls : List Call) (directory : TreePath) : Option Rules :=
  calls.findSome? fun call => if call.directory = directory then call.given else none

theorem firstGiven?_concat (calls : List Call) (directory : TreePath) (given : Option Rules)
    (other : TreePath) :
    firstGiven? (calls ++ [⟨directory, given⟩]) other =
      (firstGiven? calls other).or (if directory = other then given else none) := by
  unfold firstGiven?
  rw [List.findSome?_append, List.findSome?_singleton]

/-! ## The invariant -/

/-- The store keeps the first rules that the calls gave, and nothing else. -/
def KeepsFirst (store : Store) (calls : List Call) : Prop :=
  ∀ directory, store.get? directory = firstGiven? calls directory

namespace KeepsFirst

variable {store : Store} {calls : List Call}

theorem getOrLoad (h : store.KeepsFirst calls) (directory : TreePath)
    (load : Unit → Option Rules × α) :
    (store.step (.getOrLoad directory load)).2.KeepsFirst
      (noteCall calls (.getOrLoad directory load,
        (store.step (.getOrLoad directory load)).1)) := by
  simp only [Store.step, report_getOrLoad]
  cases hkept : store.get? directory with
  | some rules =>
    -- The loader is not called, and nothing changes.
    rw [getOrLoad_of_get?_eq_some hkept]
    exact h
  | none =>
    intro other
    rw [Option.isSome_none, if_neg Bool.false_ne_true, noteCall, firstGiven?_concat, ← h other]
    rcases eq_or_ne directory other with rfl | hne
    · rw [get?_getOrLoad_self, if_pos rfl]
    · rw [store.get?_getOrLoad_of_ne directory load hne.symm, if_neg hne, Option.or_none]

theorem step (h : store.KeepsFirst calls) (use : Use α) :
    (store.step use).2.KeepsFirst (noteCall calls (use, (store.step use).1)) := by
  cases use with
  | get directory => exact h
  | getOrLoad directory load => exact h.getOrLoad directory load
  | clear => exact fun directory => get?_empty directory

theorem run (h : store.KeepsFirst calls) (uses : List (Use α)) :
    (store.run uses).2.KeepsFirst ((store.run uses).1.foldl noteCall calls) := by
  induction uses generalizing store calls with
  | nil => exact h
  | cons use rest ih => exact ih (h.step use)

end KeepsFirst

/-- The size of a store counts the directories that it keeps rules for. -/
theorem exists_directories (store : Store) :
    ∃ directories : List TreePath, directories.Nodup ∧
      (∀ directory, directory ∈ directories ↔ (store.get? directory).isSome) ∧
        store.size = directories.length := by
  refine ⟨store.entries.keys, Std.HashMap.nodup_keys, ?_, Std.HashMap.length_keys.symm⟩
  intro directory
  rw [Std.HashMap.mem_keys, Std.HashMap.mem_iff_isSome_getElem?]
  rfl

/-- At every moment of a run, a store keeps the first rules that a loader has given for each
directory since the last clear. A loader is called just if nothing is kept for its directory, and
makes no difference to the others. -/
theorem keeps_first_given (uses : List (Use α)) :
    let trace := (run .empty uses).1
    let store := (run .empty uses).2
    let given := firstGiven? (callsIn trace)
    (∀ directory, store.get? directory = given directory) ∧
      (∀ directory, store.step (.get directory : Use α) = (.kept (given directory), store)) ∧
      (∀ directory (load : Unit → Option Rules × α), ∃ report after,
        store.step (.getOrLoad directory load) =
            (.fetched ((after.get? directory).getD []) report, after) ∧
          report = (if (given directory).isSome then none else some (load ()).2) ∧
          after.get? directory = (given directory).or (load ()).1 ∧
          ∀ other, other ≠ directory → after.get? other = store.get? other) ∧
      ∃ directories : List TreePath, directories.Nodup ∧
        (∀ directory, directory ∈ directories ↔ (given directory).isSome) ∧
        store.size = directories.length := by
  intro trace store given
  have hkeeps : store.KeepsFirst (callsIn trace) :=
    KeepsFirst.run (fun directory => get?_empty directory) uses
  have hgiven : given = store.get? := funext fun directory => (hkeeps directory).symm
  rw [hgiven]
  refine ⟨fun _ => rfl, fun _ => rfl, ?_, store.exists_directories⟩
  intro directory load
  refine ⟨_, (store.getOrLoad directory load).store, ?_, store.report_getOrLoad directory load,
    store.get?_getOrLoad_self directory load, fun _ => store.get?_getOrLoad_of_ne directory load⟩
  rw [← rules_getOrLoad]
  rfl

/-- A load that gave nothing is tried again, one that gave rules is not, and neither is undone by a
load for another directory. -/
theorem keeps_first_given_retried :
    let first := Rules.ofText "a".toList
    let second := Rules.ofText "b".toList
    let loads : List (Option Rules) := [none, some first, some second]
    let store := (run .empty (loads.map fun given => .getOrLoad .root fun _ => (given, ()))).2
    let src := TreePath.root.join "src".toList
    TreePath.root ≠ src ∧ store.get? .root = some first ∧
      (store.getOrLoad src fun _ => (some second, ())).store.get? .root = some first := by
  intro first second loads store src
  have hne : TreePath.root ≠ src := by decide
  obtain ⟨hkept, -, hload, -⟩ :=
    keeps_first_given (loads.map fun given => .getOrLoad .root fun _ => (given, ()))
  have hfirst : store.get? .root = some first := by
    refine (hkept .root).trans ?_
    simp [loads, run, step, getOrLoad, callsIn, noteCall, firstGiven?]
  obtain ⟨report, after, hstep, -, -, hothers⟩ := hload src fun _ => (some second, ())
  obtain rfl : (store.getOrLoad src fun _ => (some second, ())).store = after :=
    congrArg Prod.snd hstep
  exact ⟨hne, hfirst, (hothers .root hne).trans hfirst⟩

end PathIgnore.Store
