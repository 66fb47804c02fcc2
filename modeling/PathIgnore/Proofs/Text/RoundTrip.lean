import PathIgnore.Proofs.Text.Utf8

/-!
# Decoding what was encoded

A text is decoded from its own bytes (`decode_encode`). The bytes of a slash, of a dot and of NUL
stand only for these characters, so a text is cut at slashes before or after it is encoded alike.
-/

namespace PathIgnore.Utf8

-- The bound is a numeral, so that it can be checked by arithmetic.
theorem toNat_ofNat_byte {n : Nat} (h : n < 0x100) : (UInt8.ofNat n).toNat = n :=
  UInt8.toNat_ofNat_of_lt' h

/-! ## Reading an encoding byte by byte -/

/-- A byte that continues an encoding and does not end it. -/
theorem piecesFrom_continue {bytes : List UInt8} {value owed low high n : Nat}
    (hlow : low ≤ 0x80 + n) (hhigh : 0x80 + n ≤ high) (hn : n < 0x40) (howed : 1 < owed)
    (rest : List UInt8) :
    piecesFrom (some ⟨bytes, value, owed, low, high⟩) (.ofNat (0x80 + n) :: rest) =
      piecesFrom (some ⟨bytes ++ [.ofNat (0x80 + n)], 0x40 * value + n, owed - 1, 0x80, 0xBF⟩)
        rest := by
  rw [piecesFrom_cons, step, toNat_ofNat_byte (by omega), if_pos ⟨hlow, hhigh⟩]
  simp only [Nat.not_le.2 howed, if_false, List.nil_append, Nat.add_sub_cancel_left]

/-- A byte that ends an encoding. -/
theorem piecesFrom_last {bytes : List UInt8} {value low high n : Nat} (hlow : low ≤ 0x80 + n)
    (hhigh : 0x80 + n ≤ high) (hn : n < 0x40) (rest : List UInt8) :
    piecesFrom (some ⟨bytes, value, 1, low, high⟩) (.ofNat (0x80 + n) :: rest) =
      .char (.ofNat (0x40 * value + n)) :: piecesFrom none rest := by
  rw [piecesFrom_cons, step, toNat_ofNat_byte (by omega), if_pos ⟨hlow, hhigh⟩]
  simp only [Nat.le_refl, if_true, Nat.add_sub_cancel_left]
  rfl

/-- The first byte of two. -/
theorem start_two {n : Nat} (hlow : 0x80 ≤ n) (hhigh : n < 0x800) :
    start (.ofNat (0xC0 + n / 0x40)) =
      ([], some ⟨[.ofNat (0xC0 + n / 0x40)], n / 0x40, 1, 0x80, 0xBF⟩) := by
  unfold start
  simp only [toNat_ofNat_byte (n := 0xC0 + n / 0x40) (by omega)]
  rw [if_neg (by omega), if_pos (by omega), Nat.add_sub_cancel_left]

/-- The first byte of three. What it allows for the second holds for every code point but those
that are shorter or surrogates. -/
theorem start_three {n : Nat} (hlow : 0x800 ≤ n) (hhigh : n < 0x10000)
    (hvalid : n < 0xD800 ∨ 0xDFFF < n) :
    ∃ low high, start (.ofNat (0xE0 + n / 0x1000)) =
        ([], some ⟨[.ofNat (0xE0 + n / 0x1000)], n / 0x1000, 2, low, high⟩) ∧
      low ≤ 0x80 + n / 0x40 % 0x40 ∧ 0x80 + n / 0x40 % 0x40 ≤ high := by
  unfold start
  simp only [toNat_ofNat_byte (n := 0xE0 + n / 0x1000) (by omega)]
  rw [if_neg (by omega), if_neg (by omega)]
  rcases Nat.eq_zero_or_pos (n / 0x1000) with hzero | hpos
  · refine ⟨0xA0, 0xBF, ?_, by omega, by omega⟩
    rw [if_pos (by omega), hzero]
  rw [if_neg (by omega)]
  rcases Nat.decEq (n / 0x1000) 0xD with hne | hsurrogate
  · refine ⟨0x80, 0xBF, ?_, by omega, by omega⟩
    rw [if_neg (by omega), if_pos (by omega), Nat.add_sub_cancel_left]
  · refine ⟨0x80, 0x9F, ?_, by omega, by omega⟩
    rw [if_pos (by omega), hsurrogate]

/-- The first byte of four. -/
theorem start_four {n : Nat} (hlow : 0x10000 ≤ n) (hhigh : n < 0x110000) :
    ∃ low high, start (.ofNat (0xF0 + n / 0x40000)) =
        ([], some ⟨[.ofNat (0xF0 + n / 0x40000)], n / 0x40000, 3, low, high⟩) ∧
      low ≤ 0x80 + n / 0x1000 % 0x40 ∧ 0x80 + n / 0x1000 % 0x40 ≤ high := by
  unfold start
  simp only [toNat_ofNat_byte (n := 0xF0 + n / 0x40000) (by omega)]
  rw [if_neg (by omega), if_neg (by omega), if_neg (by omega), if_neg (by omega), if_neg (by omega)]
  rcases Nat.eq_zero_or_pos (n / 0x40000) with hzero | hpos
  · refine ⟨0x90, 0xBF, ?_, by omega, by omega⟩
    rw [if_pos (by omega), hzero]
  rw [if_neg (by omega)]
  rcases Nat.lt_or_ge (n / 0x40000) 4 with hlt | hge
  · refine ⟨0x80, 0xBF, ?_, by omega, by omega⟩
    rw [if_pos (by omega), Nat.add_sub_cancel_left]
  · refine ⟨0x80, 0x8F, ?_, by omega, by omega⟩
    rw [if_neg (by omega), if_pos (by omega), show n / 0x40000 = 4 by omega]

theorem piecesFrom_encodeChar (c : Char) (rest : List UInt8) :
    piecesFrom none (encodeChar c ++ rest) = .char c :: piecesFrom none rest := by
  have hvalid : c.toNat < 0xD800 ∨ 0xDFFF < c.toNat ∧ c.toNat < 0x110000 := c.valid
  have hchar : ∀ n, n = c.toNat → Piece.char (.ofNat n) = .char c := by
    rintro n rfl
    rw [Char.ofNat_toNat]
  -- One case for each length that an encoding may have.
  unfold encodeChar
  simp only
  split
  · rename_i hone
    rw [List.singleton_append, piecesFrom_cons, step, start_ascii, toNat_ofNat_byte (by omega),
      hchar _ rfl]
    · rfl
    · rw [toNat_ofNat_byte (by omega)]
      exact hone
  split
  · rw [List.cons_append, piecesFrom_cons, step, start_two (by omega) (by omega),
      List.singleton_append, List.nil_append, piecesFrom_last (by omega) (by omega) (by omega),
      hchar _ (by omega)]
  split
  · obtain ⟨low, high, hstart, hlow, hhigh⟩ :=
      start_three (n := c.toNat) (by omega) (by omega) (by omega)
    rw [List.cons_append, piecesFrom_cons, step, hstart, List.cons_append, List.singleton_append,
      List.nil_append, piecesFrom_continue hlow hhigh (by omega) (by omega),
      piecesFrom_last (by omega) (by omega) (by omega), hchar _ (by omega)]
  · obtain ⟨low, high, hstart, hlow, hhigh⟩ := start_four (n := c.toNat) (by omega) (by omega)
    rw [List.cons_append, piecesFrom_cons, step, hstart, List.cons_append, List.cons_append,
      List.singleton_append, List.nil_append, piecesFrom_continue hlow hhigh (by omega) (by omega),
      piecesFrom_continue (by omega) (by omega) (by omega) (by omega),
      piecesFrom_last (by omega) (by omega) (by omega), hchar _ (by omega)]

/-- Every text can be read back from its bytes. -/
@[simp] theorem decode_encode (text : Text) : decode (encode text) = text := by
  unfold decode pieces
  induction text with
  | nil => rfl
  | cons c rest ih => rw [encode_cons, piecesFrom_encodeChar, List.map_cons, ih, Piece.shown]

theorem encode_inj {text other : Text} : encode text = encode other ↔ text = other := by
  constructor
  · intro h
    rw [← decode_encode text, h, decode_encode]
  · rintro rfl
    rfl

/-! ## Bytes that stand for themselves -/

/-- A byte of a longer encoding is not that of a character by itself. -/
theorem eq_of_mem_encodeChar {byte : UInt8} {c : Char} (hmem : byte ∈ encodeChar c)
    (hbyte : byte.toNat < 0x80) : c.toNat = byte.toNat := by
  have hvalid : c.toNat < 0xD800 ∨ 0xDFFF < c.toNat ∧ c.toNat < 0x110000 := c.valid
  unfold encodeChar at hmem
  simp only at hmem
  split at hmem
  · rw [List.mem_singleton.1 hmem, toNat_ofNat_byte (by omega)]
  -- The bytes of the longer encodings are all past the plain ones.
  all_goals
    exfalso
    revert hbyte
    rw [imp_false, Nat.not_lt]
  split at hmem
  · simp only [List.mem_cons, List.not_mem_nil, or_false] at hmem
    rcases hmem with rfl | rfl <;> rw [toNat_ofNat_byte (by omega)] <;> omega
  split at hmem
  · simp only [List.mem_cons, List.not_mem_nil, or_false] at hmem
    rcases hmem with rfl | rfl | rfl <;> rw [toNat_ofNat_byte (by omega)] <;> omega
  · simp only [List.mem_cons, List.not_mem_nil, or_false] at hmem
    rcases hmem with rfl | rfl | rfl | rfl <;> rw [toNat_ofNat_byte (by omega)] <;> omega

/-- The byte of a character that stands for itself is in the encoding only if the character is in
the text. -/
theorem not_mem_encode {text : Text} {c : Char} (hc : c.toNat < 0x80) (h : c ∉ text) :
    .ofNat c.toNat ∉ encode text := by
  intro hmem
  obtain ⟨other, hother, hbyte⟩ := List.mem_flatMap.1 hmem
  have hto : (UInt8.ofNat c.toNat).toNat = c.toNat := toNat_ofNat_byte (by omega)
  have heq := eq_of_mem_encodeChar hbyte (by omega)
  obtain rfl : other = c := Char.toNat_inj.1 (heq.trans hto)
  exact h hother

theorem encode_intercalate (c : Char) (texts : List Text) :
    encode ([c].intercalate texts) = (encodeChar c).intercalate (texts.map encode) := by
  induction texts with
  | nil => rfl
  | cons text rest ih =>
    cases rest with
    | nil => simp
    | cons next rest =>
      rw [List.intercalate_cons_cons, encode_append, encode_append, ih]
      simp [List.intercalate_cons_cons]

end PathIgnore.Utf8
