import Std.Data.HashMap
import PathIgnore.Text

/-!
# Places of a text

A text of `n` characters has `n + 1` places; at place `r`, `r` characters remain. A set of places is
the number whose bit `r` says whether place `r` is in it, so one operation on numbers moves all
places of a set together. An index of a text holds the sets that a search starts from; each of them
is made when it is first needed. Main statements: the sets of an index are those that `marks`
describes (`Index.before_of`, `Index.inComponent_of`, `Index.inLine_of`).
-/

namespace PathIgnore

-- The instances of the core library, also where others are in scope.
attribute [local instance (2000)] instPowNat instHashableChar

/-- A set of places of a text, as the bits of a number. -/
abbrev Places := Nat

/-- The places whose remaining text satisfies `accept`. -/
def marks (accept : Text → Bool) : Text → Places
  | [] => (accept []).toNat
  | c :: rest => 2 ^ (rest.length + 1) * (accept (c :: rest)).toNat + marks accept rest

/-- Whether a text starts with a character that passes `allowed`. -/
def startsWith (allowed : Char → Bool) : Text → Bool
  | [] => false
  | c :: _ => allowed c

/-- The places of a list that are greater than `base` but not than `base + 2 ^ k`, counted from
`base`, and the places after them. The list starts with the greatest place. The bits of the two
halves are put together, so no bit is moved more than `k` times. -/
def gather : Nat → Nat → List Nat → Places × List Nat
  | _, _, [] => (0, [])
  | 0, base, r :: rest => if base < r then (1, rest) else (0, r :: rest)
  | k + 1, base, r :: rest =>
    if base < r then
      let high := gather k (base + 2 ^ k) (r :: rest)
      let low := gather k base high.2
      (low.1 + high.1 <<< 2 ^ k, low.2)
    else (0, r :: rest)

/-- The set of the places of a list, which starts with the greatest place and ends before place 0,
for a text of `size` characters. -/
def ofDescending (size : Nat) (places : List Nat) : Places :=
  (gather (size.log2 + 1) 0 places).1 <<< 1

/-! ## Indexes -/

/-- A text made ready for searches. -/
structure Index where
  /-- The number of characters. -/
  size : Nat
  /-- The places before each character that occurs. -/
  occurrences : Thunk (Std.HashMap Char (Thunk Places))
  /-- The places before a character that may stand in a component. -/
  inComponent : Thunk Places
  /-- The places before a character that may stand on a line. -/
  inLine : Thunk Places

namespace Index

/-- Notes the place before the next character, given how many characters are noted already. -/
def note (c : Char) : Nat × Std.HashMap Char (List Nat) → Nat × Std.HashMap Char (List Nat)
  | (size, known) => (size + 1, known.alter c fun places => some ((size + 1) :: places.getD []))

/-- The places before each character of a text, the greatest first. -/
def placesOf (text : Text) : Std.HashMap Char (List Nat) :=
  (text.foldr note (0, ∅)).2

/-- The places before a character, among those noted. -/
def lookup (occurrences : Std.HashMap Char (Thunk Places)) (c : Char) : Places :=
  match occurrences[c]? with
  | some places => places.get
  | none => 0

/-- The places before any character but `c`. -/
def butBefore (size : Nat) (occurrences : Std.HashMap Char (Thunk Places)) (c : Char) : Places :=
  (2 ^ size - 1) <<< 1 ^^^ lookup occurrences c

/-- The index of a text. -/
def of (text : Text) : Index :=
  let size := text.length
  let occurrences : Thunk (Std.HashMap Char (Thunk Places)) :=
    ⟨fun _ => (placesOf text).map fun _ places => ⟨fun _ => ofDescending size places⟩⟩
  ⟨size, occurrences, ⟨fun _ => butBefore size occurrences.get '/'⟩,
    ⟨fun _ => butBefore size occurrences.get '\n'⟩⟩

/-- The places before a character. -/
def before (index : Index) (c : Char) : Places :=
  lookup index.occurrences.get c

end Index

/-! ## What sets of places hold -/

theorem marks_lt (accept : Text → Bool) (text : Text) :
    marks accept text < 2 ^ (text.length + 1) := by
  induction text with
  | nil => cases h : accept [] <;> simp [marks, h]
  | cons c rest ih =>
    have h : (accept (c :: rest)).toNat ≤ 1 := Bool.toNat_le _
    have hmul := Nat.mul_le_mul_left (2 ^ (rest.length + 1)) h
    have hpow : 2 ^ (rest.length + 1 + 1) = 2 ^ (rest.length + 1) * 2 := Nat.pow_succ ..
    rw [marks, List.length_cons, hpow, Nat.mul_two]
    exact Nat.add_lt_add_of_le_of_lt (by simpa using hmul) ih

/-- Place `r` is marked if the last `r` characters of the text satisfy `accept`. -/
theorem testBit_marks (accept : Text → Bool) (text : Text) (r : Nat) :
    (marks accept text).testBit r =
      (decide (r ≤ text.length) && accept (text.drop (text.length - r))) := by
  induction text with
  | nil => cases r <;> simp [marks, Nat.testBit_bool_toNat, -Nat.testBit_zero]
  | cons c rest ih =>
    rw [marks, Nat.testBit_two_pow_mul_add _ (marks_lt accept rest)]
    split
    · rename_i h
      have hle : r ≤ rest.length := by omega
      have hsub : rest.length + 1 - r = rest.length - r + 1 := by omega
      rw [ih, List.length_cons, hsub, List.drop_succ_cons]
      simp [hle, Nat.le_succ_of_le hle]
    · rename_i h
      rw [Nat.testBit_bool_toNat, List.length_cons]
      by_cases hr : r = rest.length + 1
      · simp [hr]
      · have h₁ : ¬r ≤ rest.length + 1 := by omega
        have h₂ : r - (rest.length + 1) ≠ 0 := by omega
        simp [h₁, h₂]

theorem testBit_marks_zero (accept : Text → Bool) (text : Text) :
    (marks accept text).testBit 0 = accept [] := by
  simp [testBit_marks, -Nat.testBit_zero]

theorem testBit_marks_length (accept : Text → Bool) (text : Text) :
    (marks accept text).testBit text.length = accept text := by
  simp [testBit_marks]

theorem testBit_marks_of_lt (accept : Text → Bool) {text : Text} {r : Nat} (h : text.length < r) :
    (marks accept text).testBit r = false := by
  simp [testBit_marks, Nat.not_le.2 h]

/-- One character before a place of the text stands another place. -/
theorem exists_drop_eq_cons {text : Text} {r : Nat} (h : r < text.length) :
    ∃ c, text.drop (text.length - (r + 1)) = c :: text.drop (text.length - r) := by
  have hlt : text.length - (r + 1) < text.length := by omega
  refine ⟨text[text.length - (r + 1)], ?_⟩
  rw [List.drop_eq_getElem_cons hlt]
  congr 2
  omega

theorem marks_or (f g : Text → Bool) (text : Text) :
    marks f text ||| marks g text = marks (fun rest => f rest || g rest) text := by
  refine Nat.eq_of_testBit_eq fun r => ?_
  simp [testBit_marks, Bool.and_or_distrib_left]

/-- Only the end of a text leaves nothing. -/
theorem marks_isEmpty (text : Text) : marks List.isEmpty text = 1 := by
  induction text with
  | nil => rfl
  | cons c rest ih => simp [marks, ih]

/-! ## What an index holds -/

/-- The places of a list, counted from `base + 1`, as bits. -/
def bitsOf (base : Nat) : List Nat → Nat
  | [] => 0
  | r :: rest => 2 ^ (r - (base + 1)) + bitsOf base rest

/-- The places before `c`, the greatest first. -/
def descending (c : Char) : Text → List Nat
  | [] => []
  | x :: rest => if x = c then (rest.length + 1) :: descending c rest else descending c rest

theorem bitsOf_append (base : Nat) (s t : List Nat) :
    bitsOf base (s ++ t) = bitsOf base s + bitsOf base t := by
  induction s with
  | nil => simp [bitsOf]
  | cons r s ih => simp [bitsOf, ih, Nat.add_assoc]

theorem bitsOf_add {base step : Nat} {places : List Nat} (h : ∀ r ∈ places, base + step < r) :
    bitsOf base places = bitsOf (base + step) places * 2 ^ step := by
  induction places with
  | nil => simp [bitsOf]
  | cons r rest ih =>
    have hr : base + step < r := h r (by simp)
    have hsub : r - (base + 1) = r - (base + step + 1) + step := by omega
    rw [bitsOf, bitsOf, ih fun r hr => h r (by simp [hr]), Nat.add_mul, hsub, Nat.pow_add]

/-- What follows the places above a bound in a descending list lies at or below the bound. -/
theorem le_of_mem_dropWhile {bound : Nat} {places : List Nat} (hp : places.Pairwise (· > ·))
    {r : Nat} (hr : r ∈ places.dropWhile (bound < ·)) : r ≤ bound := by
  induction places with
  | nil => simp at hr
  | cons x rest ih =>
    obtain ⟨hx, hrest⟩ := List.pairwise_cons.1 hp
    by_cases h : bound < x
    · rw [List.dropWhile_cons_of_pos (by simpa using h)] at hr
      exact ih hrest hr
    · rw [List.dropWhile_cons_of_neg (by simpa using h)] at hr
      rcases List.mem_cons.1 hr with rfl | hr
      · omega
      · have := hx r hr
        omega

theorem gather_eq {k base : Nat} {places : List Nat} (hp : places.Pairwise (· > ·))
    (hle : ∀ r ∈ places, r ≤ base + 2 ^ k) :
    gather k base places =
      (bitsOf base (places.takeWhile (base < ·)), places.dropWhile (base < ·)) := by
  induction k generalizing base places with
  | zero =>
    cases places with
    | nil => simp [gather, bitsOf]
    | cons r rest =>
      by_cases h : base < r
      · have hr : r = base + 1 := by
          have := hle r (by simp)
          simp only [Nat.pow_zero] at this
          omega
        have hrest : ∀ x ∈ rest, x ≤ base := by
          intro x hx
          have := (List.pairwise_cons.1 hp).1 x hx
          omega
        subst hr
        cases rest with
        | nil => simp [gather, bitsOf]
        | cons x more =>
          have hx : ¬base < x := Nat.not_lt.2 (hrest x (by simp))
          simp [gather, bitsOf, hx]
      · simp [gather, h, bitsOf]
  | succ k ih =>
    cases places with
    | nil => simp [gather, bitsOf]
    | cons r rest =>
      by_cases h : base < r
      · have hhigh := @ih (base + 2 ^ k) _ hp fun x hx => by
          have := hle x hx
          rw [Nat.pow_succ] at this
          omega
        generalize hps : r :: rest = places at *
        have hlow := @ih base _ (hp.sublist (List.dropWhile_sublist (base + 2 ^ k < ·)))
          fun x hx => le_of_mem_dropWhile hp hx
        have habove : ∀ x ∈ places.takeWhile (base + 2 ^ k < ·), base + 2 ^ k < x := by
          intro x hx
          have := List.all_eq_true.1 (List.all_takeWhile (p := (base + 2 ^ k < ·))) x hx
          simpa using this
        have hpass : ∀ x ∈ places.takeWhile (base + 2 ^ k < ·), decide (base < x) = true := by
          intro x hx
          exact decide_eq_true (Nat.lt_of_le_of_lt (Nat.le_add_right _ _) (habove x hx))
        have hsplit := List.takeWhile_append_dropWhile (p := (base + 2 ^ k < ·)) (l := places)
        rw [← hps, gather, if_pos h, hps]
        · simp only [hhigh, hlow, Nat.shiftLeft_eq]
          rw [← bitsOf_add habove, Nat.add_comm, ← bitsOf_append,
            ← List.takeWhile_append_of_pos hpass, ← List.dropWhile_append_of_pos hpass, hsplit]
      · simp [gather, h, bitsOf]

theorem mem_descending {c : Char} {text : Text} {r : Nat} (h : r ∈ descending c text) :
    0 < r ∧ r ≤ text.length := by
  induction text with
  | nil => simp [descending] at h
  | cons x rest ih =>
    rw [descending] at h
    split at h
    · rcases List.mem_cons.1 h with rfl | h
      · simp
      · have := ih h
        simp only [List.length_cons]
        omega
    · have := ih h
      simp only [List.length_cons]
      omega

theorem pairwise_descending (c : Char) (text : Text) : (descending c text).Pairwise (· > ·) := by
  induction text with
  | nil => simp [descending]
  | cons x rest ih =>
    rw [descending]
    split
    · refine List.pairwise_cons.2 ⟨fun r hr => ?_, ih⟩
      have := (mem_descending hr).2
      omega
    · exact ih

theorem descending_eq_nil {c : Char} {text : Text} (h : c ∉ text) : descending c text = [] := by
  induction text with
  | nil => rfl
  | cons x rest ih =>
    obtain ⟨hx, hrest⟩ : c ≠ x ∧ c ∉ rest := by simpa using h
    rw [descending, if_neg hx.symm, ih hrest]

theorem bitsOf_descending (c : Char) (text : Text) :
    bitsOf 0 (descending c text) * 2 = marks (startsWith (· == c)) text := by
  induction text with
  | nil => rfl
  | cons x rest ih =>
    rw [descending, marks]
    split
    · rename_i h
      simp [bitsOf, Nat.add_mul, ih, startsWith, h, Nat.pow_succ]
    · rename_i h
      have h' : (x == c) = false := by simpa using h
      simp [ih, startsWith, h']

theorem ofDescending_descending (c : Char) (text : Text) :
    ofDescending text.length (descending c text) = marks (startsWith (· == c)) text := by
  have hle : ∀ r ∈ descending c text, r ≤ 0 + 2 ^ (text.length.log2 + 1) := fun r hr => by
    have := (mem_descending hr).2
    have := Nat.lt_log2_self (n := text.length)
    omega
  have htake : (descending c text).takeWhile (0 < ·) = descending c text := by
    have h := @List.takeWhile_append_of_pos _ (0 < ·) (descending c text) [] fun r hr => by
      simpa using (mem_descending hr).1
    simpa using h
  rw [ofDescending, gather_eq (pairwise_descending c text) hle, htake, Nat.shiftLeft_eq]
  exact bitsOf_descending c text

/-- Every other place but the end is before another character. -/
theorem marks_startsWith_ne (c : Char) (text : Text) :
    (2 ^ text.length - 1) <<< 1 ^^^ marks (startsWith (· == c)) text =
      marks (startsWith (· != c)) text := by
  refine Nat.eq_of_testBit_eq fun r => ?_
  rw [Nat.testBit_xor, Nat.testBit_shiftLeft, Nat.testBit_two_pow_sub_one]
  cases r with
  | zero => rw [testBit_marks_zero, testBit_marks_zero]; simp [startsWith]
  | succ r =>
    by_cases h : r < text.length
    · obtain ⟨x, hx⟩ := exists_drop_eq_cons h
      have hle : r + 1 ≤ text.length := h
      simp [testBit_marks, hx, hle, h, startsWith, bne]
    · have hlt : text.length < r + 1 := by omega
      simp [testBit_marks_of_lt _ hlt, h]

namespace Index

theorem foldr_note (text : Text) :
    (text.foldr note (0, ∅)).1 = text.length ∧
      ∀ c, (text.foldr note (0, ∅)).2[c]? =
        if c ∈ text then some (descending c text) else none := by
  induction text with
  | nil => simp
  | cons x rest ih =>
    obtain ⟨hsize, hknown⟩ := ih
    rw [List.foldr_cons, note]
    refine ⟨by simp [hsize], fun c => ?_⟩
    rw [Std.HashMap.getElem?_alter, hknown, hknown, hsize, descending]
    by_cases hx : x = c
    · subst hx
      by_cases hmem : x ∈ rest
      · simp [hmem]
      · simp [hmem, descending_eq_nil hmem]
    · simp [hx, Ne.symm hx]

theorem lookup_map_placesOf (text : Text) (c : Char) :
    lookup ((placesOf text).map fun _ places => ⟨fun _ => ofDescending text.length places⟩) c =
      marks (startsWith (· == c)) text := by
  rw [lookup, Std.HashMap.getElem?_map, placesOf, (foldr_note text).2, ← ofDescending_descending]
  by_cases h : c ∈ text
  · simp only [h, if_true, Option.map_some]
    rfl
  · rw [descending_eq_nil h]
    simp [h, ofDescending, gather]

theorem before_of (text : Text) (c : Char) :
    (of text).before c = marks (startsWith (· == c)) text :=
  lookup_map_placesOf text c

theorem inComponent_of (text : Text) :
    (of text).inComponent.get = marks (startsWith (· != '/')) text := by
  rw [← marks_startsWith_ne, ← lookup_map_placesOf]
  rfl

theorem inLine_of (text : Text) :
    (of text).inLine.get = marks (startsWith (· != '\n')) text := by
  rw [← marks_startsWith_ne, ← lookup_map_placesOf]
  rfl

end Index

end PathIgnore
