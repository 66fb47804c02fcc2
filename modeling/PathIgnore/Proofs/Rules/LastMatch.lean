import Mathlib.Data.List.Induction
import PathIgnore.Rules

/-!
# The rule that decides in a file

Of the rules of a file that cover a path, the one with the greatest position decides.
-/

namespace PathIgnore.Rules

theorem find?_reverse_eq_some_iff {α : Type} {p : α → Bool} {l : List α} {a : α} :
    l.reverse.find? p = some a ↔
      ∃ i : Nat, l[i]? = some a ∧ p a = true ∧
        ∀ (j : Nat) (b : α), i < j → l[j]? = some b → p b = false := by
  -- The last element is tried first, so the induction takes elements off the end.
  induction l using List.reverseRecOn with
  | nil => simp
  | append_singleton front last ih =>
    rw [List.reverse_concat]
    cases hlast : p last with
    | true =>
      rw [List.find?_cons_of_pos hlast, Option.some_inj]
      constructor
      · rintro rfl
        refine ⟨front.length, by simp, hlast, ?_⟩
        intro j b hj hb
        rw [List.getElem?_eq_none (by simp; omega)] at hb
        cases hb
      · rintro ⟨i, hi, -, hafter⟩
        rcases Nat.lt_trichotomy i front.length with hlt | heq | hgt
        · have := hafter front.length last hlt (by simp)
          rw [hlast] at this
          cases this
        · rw [heq] at hi
          simpa using hi
        · rw [List.getElem?_eq_none (by simp; omega)] at hi
          cases hi
    | false =>
      rw [List.find?_cons_of_neg (by simp [hlast]), ih]
      constructor
      · rintro ⟨i, hi, ha, hafter⟩
        have hlt : i < front.length := (List.getElem?_eq_some_iff.1 hi).1
        refine ⟨i, by rw [List.getElem?_append_left hlt, hi], ha, ?_⟩
        intro j b hj hb
        rcases Nat.lt_or_ge j front.length with hjlt | hjge
        · rw [List.getElem?_append_left hjlt] at hb
          exact hafter j b hj hb
        · rw [List.getElem?_append_right hjge] at hb
          obtain rfl : last = b := List.mem_singleton.1 (List.mem_of_getElem? hb) |>.symm
          exact hlast
      · rintro ⟨i, hi, ha, hafter⟩
        rcases Nat.lt_or_ge i front.length with hlt | hge
        · rw [List.getElem?_append_left hlt] at hi
          refine ⟨i, hi, ha, ?_⟩
          intro j b hj hb
          have hjlt : j < front.length := (List.getElem?_eq_some_iff.1 hb).1
          exact hafter j b hj (by rw [List.getElem?_append_left hjlt, hb])
        · rw [List.getElem?_append_right hge] at hi
          obtain rfl : last = a := List.mem_singleton.1 (List.mem_of_getElem? hi) |>.symm
          rw [hlast] at ha
          cases ha

theorem lastMatch?_eq_some_iff {rules : Rules} {path : Text} {isDirectory : Bool} {rule : Rule} :
    rules.lastMatch? path isDirectory = some rule ↔
      ∃ i : Nat, rules[i]? = some rule ∧ rule.covers path isDirectory = true ∧
        ∀ (j : Nat) (later : Rule), i < j → rules[j]? = some later →
          later.covers path isDirectory = false := by
  rw [lastMatch?_eq_find?, find?_reverse_eq_some_iff]

theorem lastMatch?_eq_none_iff {rules : Rules} {path : Text} {isDirectory : Bool} :
    rules.lastMatch? path isDirectory = none ↔
      ∀ rule ∈ rules, rule.covers path isDirectory = false := by
  simp [lastMatch?_eq_find?]

/-- No rule covers the empty path. -/
@[simp] theorem lastMatch?_empty_path (rules : Rules) (isDirectory : Bool) :
    rules.lastMatch? [] isDirectory = none := by
  rw [lastMatch?_eq_none_iff]
  intro rule _
  exact rule.covers_nil isDirectory

theorem lastMatch?_singleton (rule : Rule) (path : Text) (isDirectory : Bool) :
    lastMatch? [rule] path isDirectory =
      if rule.covers path isDirectory then some rule else none := by
  rw [lastMatch?_eq_find?, List.reverse_singleton, List.find?_singleton]

/-- Rules that cover alike and say the same decide alike. -/
theorem lastMatch?_map_verdict {α : Type} {l : List α} {f g : α → Rule} {path other : Text}
    {isDirectory : Bool}
    (hcovers : ∀ a ∈ l, (f a).covers path isDirectory = (g a).covers other isDirectory)
    (hverdict : ∀ a ∈ l, (f a).verdict = (g a).verdict) :
    (lastMatch? (l.map f) path isDirectory).map Rule.verdict =
      (lastMatch? (l.map g) other isDirectory).map Rule.verdict := by
  induction l using List.reverseRecOn with
  | nil => rfl
  | append_singleton front a ih =>
    have hfront := ih (fun b hb => hcovers b (List.mem_append_left _ hb))
      fun b hb => hverdict b (List.mem_append_left _ hb)
    rw [List.map_append, List.map_append, lastMatch?_append, lastMatch?_append, Option.map_or,
      Option.map_or, hfront, List.map_singleton, List.map_singleton, lastMatch?_singleton,
      lastMatch?_singleton, hcovers a (by simp)]
    split
    · rw [Option.map_some, Option.map_some, hverdict a (by simp)]
    · rfl

end PathIgnore.Rules
