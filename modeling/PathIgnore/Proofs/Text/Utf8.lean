import PathIgnore.Text.Utf8

/-!
# Decoding and plain characters

A plain character is one that only its own byte decodes to. Whatever is read from longer encodings,
and whatever is broken, is shown as another character. Main statements: a plain character of the
decoded text stands among the bytes (`mem_of_mem_decode`), and a text of plain characters was
decoded from exactly its own bytes (`encode_decode_of_plain`).
-/

namespace PathIgnore.Utf8

-- The instance of the core library, also where others are in scope.
attribute [local instance (2000)] instPowNat

/-- Whether only its own byte decodes to the character. -/
def IsPlain (c : Char) : Prop :=
  0 < c.toNat ∧ c.toNat < 0x80

instance (c : Char) : Decidable (IsPlain c) :=
  inferInstanceAs (Decidable (_ ∧ _))

/-- Whether the encoding, once complete, has a value past the values of single bytes. -/
def Pending.IsLong (p : Pending) : Prop :=
  0x80 ≤ p.low ∧ 0x80 ≤ 0x40 ^ (p.owed - 1) * (0x40 * p.value + (p.low - 0x80))

theorem toNat_ofNat_of_lt {n : Nat} (h : n < 0x80) : (Char.ofNat n).toNat = n := by
  have hvalid : n.isValidChar := Or.inl (by omega)
  rw [Char.ofNat, dif_pos hvalid]
  rfl

theorem not_isPlain_ofNat {n : Nat} (h : 0x80 ≤ n) : ¬IsPlain (Char.ofNat n) := by
  rcases Classical.em n.isValidChar with hvalid | hvalid
  · rw [Char.ofNat, dif_pos hvalid]
    intro hplain
    exact absurd hplain.2 (Nat.not_lt.2 h)
  · rw [Char.ofNat, dif_neg hvalid]
    decide

theorem encodeChar_of_isPlain {c : Char} (h : IsPlain c) : encodeChar c = [.ofNat c.toNat] := by
  unfold encodeChar
  rw [if_pos h.2]

/-! ## What a step reads -/

theorem isLong_of_start {byte : UInt8} {p : Pending} (h : (start byte).2 = some p) :
    p.IsLong := by
  unfold start at h
  simp only at h
  split at h
  · cases h
  split at h
  · cases h; simp [Pending.IsLong]; omega
  split at h
  · cases h; simp [Pending.IsLong]
  split at h
  · cases h; simp [Pending.IsLong]
  split at h
  · cases h; simp [Pending.IsLong]; omega
  split at h
  · cases h; simp [Pending.IsLong]
  split at h
  · cases h; simp [Pending.IsLong]; omega
  split at h
  · cases h; simp [Pending.IsLong]
  · cases h

/-- A byte past the plain ones gives no plain character, and leaves some trace. -/
theorem start_long {byte : UInt8} (h : 0x80 ≤ byte.toNat) :
    (∀ piece ∈ (start byte).1, ¬IsPlain piece.shown) ∧
      ((start byte).1 = [] → (start byte).2 ≠ none) := by
  unfold start
  simp only
  rw [if_neg (Nat.not_lt.2 h)]
  repeat' split
  all_goals simp [Piece.shown, IsPlain]

/-- A byte that stands for itself closes whatever is pending. -/
theorem step_ascii {pending : Option Pending} (hlong : ∀ p ∈ pending, p.IsLong) {byte : UInt8}
    (h : byte.toNat < 0x80) :
    step pending byte = (piecesFrom pending [] ++ [.char (.ofNat byte.toNat)], none) := by
  cases pending with
  | none => exact start_ascii h
  | some p =>
    have hlow : ¬p.low ≤ byte.toNat := by
      have := (hlong p rfl).1
      omega
    simp [step, hlow, start_ascii h, piecesFrom]

theorem step_long {pending : Option Pending} (hlong : ∀ p ∈ pending, p.IsLong) {byte : UInt8}
    (h : 0x80 ≤ byte.toNat) :
    (∀ piece ∈ (step pending byte).1, ¬IsPlain piece.shown) ∧
      (∀ p ∈ (step pending byte).2, p.IsLong) ∧
      ((step pending byte).1 = [] → (step pending byte).2 ≠ none) := by
  cases pending with
  | none => exact ⟨(start_long h).1, fun p hp => isLong_of_start hp, (start_long h).2⟩
  | some p =>
    obtain ⟨hlow, hvalue⟩ := hlong p rfl
    rw [step]
    split
    · rename_i hrange
      simp only
      split
      · -- The encoding is complete: its value is the one that `IsLong` bounds.
        rename_i howed
        have hone : p.owed - 1 = 0 := by omega
        rw [hone, Nat.pow_zero, Nat.one_mul] at hvalue
        have hlast : 0x80 ≤ 0x40 * p.value + (byte.toNat - 0x80) := by omega
        simpa [Piece.shown] using not_isPlain_ofNat hlast
      · rename_i howed
        have hstep : p.owed - 1 = p.owed - 1 - 1 + 1 := by omega
        refine ⟨by simp, ?_, by simp⟩
        rintro q ⟨rfl⟩
        refine ⟨Nat.le_refl _, ?_⟩
        rw [hstep, Nat.pow_succ, Nat.mul_assoc] at hvalue
        refine Nat.le_trans hvalue (Nat.mul_le_mul_left _ ?_)
        simp only
        omega
    · refine ⟨?_, fun q hq => isLong_of_start hq, by simp⟩
      intro piece hpiece
      rcases List.mem_cons.1 hpiece with rfl | hpiece
      · simp [Piece.shown, IsPlain]
      · exact (start_long h).1 piece hpiece

/-! ## Whole byte strings -/

theorem mem_of_mem_piecesFrom {pending : Option Pending} (hlong : ∀ p ∈ pending, p.IsLong)
    {bytes : List UInt8} {piece : Piece} (hpiece : piece ∈ piecesFrom pending bytes)
    (hplain : IsPlain piece.shown) : .ofNat piece.shown.toNat ∈ bytes := by
  -- What is left over at the end is broken, and shown as no plain character.
  have hbroken : ∀ (q : Option Pending), piece ∉ piecesFrom q [] := by
    intro q hq
    cases q with
    | none => simp at hq
    | some p =>
      obtain rfl : piece = .broken p.bytes := by simpa [piecesFrom] using hq
      simp [Piece.shown, IsPlain] at hplain
  induction bytes generalizing pending with
  | nil => exact absurd hpiece (hbroken pending)
  | cons byte rest ih =>
    rw [piecesFrom_cons] at hpiece
    rcases Nat.lt_or_ge byte.toNat 0x80 with h | h
    · rw [step_ascii hlong h, List.append_assoc, List.mem_append] at hpiece
      rcases hpiece with hpiece | hpiece
      · exact absurd hpiece (hbroken pending)
      · rcases List.mem_cons.1 hpiece with rfl | hpiece
        · simp [Piece.shown, toNat_ofNat_of_lt h]
        · exact List.mem_cons_of_mem _ (ih (by simp) hpiece)
    · obtain ⟨hnone, hnext, -⟩ := step_long hlong h
      rcases List.mem_append.1 hpiece with hpiece | hpiece
      · exact absurd hplain (hnone piece hpiece)
      · exact List.mem_cons_of_mem _ (ih hnext hpiece)

/-- A plain character of the decoded text stands among the bytes. -/
theorem mem_of_mem_decode {bytes : List UInt8} {c : Char} (hc : c ∈ decode bytes)
    (hplain : IsPlain c) : .ofNat c.toNat ∈ bytes := by
  obtain ⟨piece, hpiece, rfl⟩ := List.mem_map.1 hc
  exact mem_of_mem_piecesFrom (by simp) hpiece hplain

theorem encode_of_piecesFrom_plain {pending : Option Pending} (hlong : ∀ p ∈ pending, p.IsLong)
    {bytes : List UInt8} (hplain : ∀ piece ∈ piecesFrom pending bytes, IsPlain piece.shown) :
    pending = none ∧ encode ((piecesFrom pending bytes).map Piece.shown) = bytes := by
  -- Something left over at the end would be shown as no plain character.
  have hclosed : ∀ (q : Option Pending), (∀ piece ∈ piecesFrom q [], IsPlain piece.shown) →
      q = none := by
    intro q hq
    cases q with
    | none => rfl
    | some p =>
      have hshown : IsPlain '\uFFFD' := hq (.broken p.bytes) (by simp [piecesFrom])
      exact absurd hshown (by decide)
  induction bytes generalizing pending with
  | nil =>
    obtain rfl := hclosed pending hplain
    exact ⟨rfl, rfl⟩
  | cons byte rest ih =>
    rw [piecesFrom_cons] at hplain ⊢
    rcases Nat.lt_or_ge byte.toNat 0x80 with h | h
    · rw [step_ascii hlong h] at hplain ⊢
      simp only [List.append_assoc, List.forall_mem_append] at hplain
      obtain ⟨hbefore, hbyte, hrest⟩ := hplain
      obtain rfl := hclosed pending hbefore
      have hchar : IsPlain (Char.ofNat byte.toNat) := hbyte (.char (.ofNat byte.toNat)) (by simp)
      obtain ⟨-, hencode⟩ := ih (by simp) hrest
      refine ⟨rfl, ?_⟩
      simp only [piecesFrom_none_nil, List.nil_append, List.singleton_append, List.map_cons,
        Piece.shown, encode_cons, hencode, encodeChar_of_isPlain hchar, toNat_ofNat_of_lt h,
        UInt8.ofNat_toNat]
    · -- Such a byte leaves a piece that is not plain, now or at the end of what it starts.
      obtain ⟨hnone, hnext, htrace⟩ := step_long hlong h
      rw [List.forall_mem_append] at hplain
      have hclosed' := (ih hnext hplain.2).1
      cases hpieces : (step pending byte).1 with
      | nil => exact absurd hclosed' (htrace hpieces)
      | cons piece more =>
        have hmem : piece ∈ (step pending byte).1 := by simp [hpieces]
        exact absurd (hplain.1 piece hmem) (hnone piece hmem)

/-- A text of plain characters was decoded from exactly its own bytes. -/
theorem encode_decode_of_plain {bytes : List UInt8} (hplain : ∀ c ∈ decode bytes, IsPlain c) :
    encode (decode bytes) = bytes := by
  have hnone : ∀ p ∈ (none : Option Pending), p.IsLong := by simp
  refine (encode_of_piecesFrom_plain hnone ?_).2
  intro piece hpiece
  exact hplain piece.shown (List.mem_map_of_mem hpiece)

end PathIgnore.Utf8
