import PathIgnore.Pattern
import PathIgnore.Pattern.Places

/-!
# Searching a text for a pattern

`Pattern.pull` takes the set of the places where a match may end to the set of the places where one
may start, token by token from the last to the first. A token moves all places of the set with a few
operations on numbers, so the search never backtracks, and it answers for every start and every end
together.
-/

namespace PathIgnore

/-- The places one character before a place of the set, as far as they are among `before`. -/
def stepBack (before places : Places) : Places :=
  places <<< 1 &&& before

/-- The places from which steps inside `inside` lead to the set, a run of no steps included. Adding
the first steps to `inside` carries through every block of neighbours in it up to the end of the
block, and so changes the bits of all the places that are reached. -/
def runBack (inside places : Places) : Places :=
  let entered := stepBack inside places
  places ||| (((inside + entered) ^^^ inside) ||| entered) &&& inside

namespace Token

/-- The places from which the token leads to the set. -/
def pull (index : Index) : Token → Places → Places
  | .literal c, places => stepBack (index.before c) places
  | .component, places => runBack index.inComponent.get places
  | .anything, places => runBack index.inLine.get places
  | .directories, places =>
    places ||| runBack index.inLine.get (stepBack (index.before '/') places)

end Token

namespace Pattern

/-- The places from which the pattern leads to the set. Nothing leads to the empty set. -/
def pull (index : Index) (pattern : Pattern) (places : Places) : Places :=
  pattern.foldr (fun token places => if places = 0 then 0 else token.pull index places) places

/-- Whether the pattern accepts the whole text. -/
def accepts (pattern : Pattern) (text : Text) : Bool :=
  let index := Index.of text
  (pattern.pull index 1).testBit index.size

end Pattern

/-! ## Sets of predicates

Every set that a search meets marks the places whose remaining text satisfies a predicate. -/

/-- Whether the text starts with `c` and `accept` holds of what follows. -/
def afterLiteral (c : Char) (accept : Text → Bool) : Text → Bool
  | [] => false
  | x :: rest => x == c && accept rest

/-- Whether `accept` holds after some run of characters that pass `allowed`. -/
def afterRun (allowed : Char → Bool) (accept : Text → Bool) : Text → Bool
  | [] => accept []
  | x :: rest => accept (x :: rest) || (allowed x && afterRun allowed accept rest)

theorem testBit_stepBack_zero (before places : Places) :
    (stepBack before places).testBit 0 = false := by
  simp [stepBack]

theorem testBit_stepBack_succ (before places : Places) (r : Nat) :
    (stepBack before places).testBit (r + 1) =
      (places.testBit r && before.testBit (r + 1)) := by
  simp [stepBack, Nat.testBit_shiftLeft]

theorem stepBack_zero (before : Places) : stepBack before 0 = 0 := by
  simp [stepBack]

theorem runBack_zero (inside : Places) : runBack inside 0 = 0 := by
  simp [runBack, stepBack_zero]

/-- The carry into a place says whether the place before it is reached. -/
theorem testBit_runBack {w : Nat} (inside places : Places) {r : Nat} (h : r < w) :
    (runBack inside places).testBit r =
      (places.testBit r || (inside.testBit r && ((stepBack inside places).testBit r ||
        BitVec.carry r (BitVec.ofNat w inside) (BitVec.ofNat w (stepBack inside places))
          false))) := by
  have hadd : (inside + stepBack inside places).testBit r =
      (BitVec.ofNat w inside + BitVec.ofNat w (stepBack inside places)).getLsbD r := by
    rw [← BitVec.ofNat_add, BitVec.getLsbD_ofNat]
    simp [h]
  rw [BitVec.getLsbD_add h, BitVec.getLsbD_ofNat, BitVec.getLsbD_ofNat] at hadd
  simp only [runBack, Nat.testBit_or, Nat.testBit_and, Nat.testBit_xor, hadd, h, decide_true,
    Bool.true_and]
  cases places.testBit r <;> cases inside.testBit r <;> cases (stepBack inside places).testBit r <;>
    cases BitVec.carry r (BitVec.ofNat w inside) (BitVec.ofNat w (stepBack inside places)) false <;>
    rfl

theorem testBit_runBack_zero (inside places : Places) :
    (runBack inside places).testBit 0 = places.testBit 0 := by
  rw [testBit_runBack inside places Nat.one_pos, testBit_stepBack_zero, BitVec.carry_zero]
  simp

theorem testBit_runBack_succ (inside places : Places) (r : Nat) :
    (runBack inside places).testBit (r + 1) =
      (places.testBit (r + 1) ||
        (inside.testBit (r + 1) && (runBack inside places).testBit r)) := by
  have hr : r < r + 2 := by omega
  have himp : (stepBack inside places).testBit r = true → inside.testBit r = true := by
    intro h
    simp only [stepBack, Nat.testBit_and, Bool.and_eq_true] at h
    exact h.2
  rw [testBit_runBack inside places (Nat.lt_succ_self (r + 1)), testBit_runBack inside places hr,
    BitVec.carry_succ, BitVec.getLsbD_ofNat, BitVec.getLsbD_ofNat, testBit_stepBack_succ]
  simp only [hr, decide_true, Bool.true_and, Bool.atLeastTwo]
  revert himp
  cases places.testBit (r + 1) <;> cases inside.testBit (r + 1) <;> cases places.testBit r <;>
    cases inside.testBit r <;> cases (stepBack inside places).testBit r <;> simp

theorem stepBack_marks (c : Char) (accept : Text → Bool) (text : Text) :
    stepBack (marks (startsWith (· == c)) text) (marks accept text) =
      marks (afterLiteral c accept) text := by
  refine Nat.eq_of_testBit_eq fun r => ?_
  cases r with
  | zero => rw [testBit_stepBack_zero, testBit_marks_zero, afterLiteral]
  | succ r =>
    rw [testBit_stepBack_succ]
    by_cases h : r < text.length
    · obtain ⟨x, hx⟩ := exists_drop_eq_cons h
      have hle : r + 1 ≤ text.length := h
      simp [testBit_marks, hx, hle, Nat.le_of_lt h, startsWith, afterLiteral, Bool.and_comm]
    · have hlt : text.length < r + 1 := by omega
      simp [testBit_marks_of_lt _ hlt]

theorem runBack_marks (allowed : Char → Bool) (accept : Text → Bool) (text : Text) :
    runBack (marks (startsWith allowed) text) (marks accept text) =
      marks (afterRun allowed accept) text := by
  refine Nat.eq_of_testBit_eq fun r => ?_
  induction r with
  | zero => rw [testBit_runBack_zero, testBit_marks_zero, testBit_marks_zero, afterRun]
  | succ r ih =>
    rw [testBit_runBack_succ, ih]
    by_cases h : r < text.length
    · obtain ⟨x, hx⟩ := exists_drop_eq_cons h
      have hle : r + 1 ≤ text.length := h
      simp [testBit_marks, hx, hle, Nat.le_of_lt h, startsWith, afterRun]
    · have hlt : text.length < r + 1 := by omega
      simp [testBit_marks_of_lt _ hlt]

theorem afterRun_eq_true_iff {allowed : Char → Bool} {accept : Text → Bool} {text : Text} :
    afterRun allowed accept text = true ↔
      ∃ run rest, text = run ++ rest ∧ (∀ c ∈ run, allowed c) ∧ accept rest := by
  induction text with
  | nil =>
    constructor
    · intro h; exact ⟨[], [], rfl, by simp, h⟩
    · rintro ⟨run, rest, h, -, hr⟩
      obtain ⟨rfl, rfl⟩ := List.append_eq_nil_iff.1 h.symm
      exact hr
  | cons x text ih =>
    simp only [afterRun, Bool.or_eq_true, Bool.and_eq_true, ih]
    constructor
    · rintro (h | ⟨hx, run, rest, rfl, hrun, hrest⟩)
      · exact ⟨[], x :: text, rfl, by simp, h⟩
      · exact ⟨x :: run, rest, rfl, by simpa using ⟨hx, hrun⟩, hrest⟩
    · rintro ⟨run, rest, h, hrun, hrest⟩
      cases run with
      | nil => left; rw [List.nil_append] at h; exact h ▸ hrest
      | cons y run =>
        obtain ⟨rfl, rfl⟩ := List.cons.inj h
        right
        exact ⟨hrun _ (by simp), run, rest, rfl, fun c hc => hrun c (by simp [hc]), hrest⟩

theorem Token.pull_zero (index : Index) (token : Token) : token.pull index 0 = 0 := by
  cases token <;> simp [Token.pull, stepBack_zero, runBack_zero]

namespace Pattern

@[simp] theorem pull_cons (index : Index) (token : Token) (pattern : Pattern) (places : Places) :
    pull index (token :: pattern) places = token.pull index (pull index pattern places) := by
  change (if pull index pattern places = 0 then 0 else _) = _
  split
  · rename_i h
    rw [h, Token.pull_zero]
  · rfl

end Pattern

end PathIgnore
