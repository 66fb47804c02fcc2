import PathIgnore.Proofs.Text.Pieces
import PathIgnore.Proofs.Text.RoundTrip

/-!
# Cutting before and after decoding

The byte of a plain character is never part of a longer encoding, and breaks off one that is cut
short. So it does not matter whether bytes are cut at it and the pieces decoded, or the decoded text
is cut at the character (`splitOn_decode`).
-/

namespace PathIgnore

namespace Utf8

/-- Whatever is pending after a byte has a value past the values of single bytes. -/
theorem isLong_step {pending : Option Pending} (hlong : ∀ p ∈ pending, p.IsLong) (byte : UInt8) :
    ∀ p ∈ (step pending byte).2, p.IsLong := by
  rcases Nat.lt_or_ge byte.toNat 0x80 with h | h
  · rw [step_ascii hlong h]
    simp
  · exact (step_long hlong h).2.1

/-- A byte that stands for itself ends what is read before it, and nothing of it is left over. -/
theorem piecesFrom_append_ascii {pending : Option Pending} (hlong : ∀ p ∈ pending, p.IsLong)
    (bytes : List UInt8) {byte : UInt8} (h : byte.toNat < 0x80) (more : List UInt8) :
    piecesFrom pending (bytes ++ byte :: more) =
      piecesFrom pending bytes ++ .char (.ofNat byte.toNat) :: pieces more := by
  induction bytes generalizing pending with
  | nil =>
    rw [List.nil_append, piecesFrom_cons, step_ascii hlong h, List.append_assoc,
      List.singleton_append]
    rfl
  | cons first rest ih =>
    rw [List.cons_append, piecesFrom_cons, piecesFrom_cons, ih (isLong_step hlong first),
      List.append_assoc]

variable {c : Char}

theorem decode_append_cons (h : IsPlain c) (bytes more : List UInt8) :
    decode (bytes ++ .ofNat c.toNat :: more) = decode bytes ++ c :: decode more := by
  obtain ⟨-, hlt⟩ := h
  have hbyte : (UInt8.ofNat c.toNat).toNat = c.toNat := toNat_ofNat_byte (by omega)
  have hnone : ∀ p ∈ (none : Option Pending), p.IsLong := by simp
  unfold decode pieces
  rw [piecesFrom_append_ascii hnone bytes (by omega), hbyte, Char.ofNat_toNat, List.map_append,
    List.map_cons]
  rfl

theorem decode_intercalate (h : IsPlain c) (runs : List (List UInt8)) :
    decode ([.ofNat c.toNat].intercalate runs) = [c].intercalate (runs.map decode) := by
  induction runs with
  | nil => rfl
  | cons run rest ih =>
    cases rest with
    | nil => simp
    | cons next rest =>
      have hrest := decode_append_cons h run ([.ofNat c.toNat].intercalate (next :: rest))
      simpa [List.intercalate_cons_cons, ih] using hrest

/-- Cutting the decoded text gives the decoded pieces. -/
theorem splitOn_decode (h : IsPlain c) (bytes : List UInt8) :
    (decode bytes).splitOn c = (bytes.splitOn (.ofNat c.toNat)).map decode := by
  have hnot : ∀ text ∈ (bytes.splitOn (.ofNat c.toNat)).map decode, c ∉ text := by
    intro text htext hc
    obtain ⟨run, hrun, rfl⟩ := List.mem_map.1 htext
    exact not_mem_of_mem_splitOn hrun (mem_of_mem_decode hc h)
  have hne : (bytes.splitOn (.ofNat c.toNat)).map decode ≠ [] := by
    simp [List.splitOn_ne_nil]
  calc (decode bytes).splitOn c
      = (decode ([.ofNat c.toNat].intercalate (bytes.splitOn (.ofNat c.toNat)))).splitOn c := by
        rw [List.intercalate_splitOn]
    _ = ([c].intercalate ((bytes.splitOn (.ofNat c.toNat)).map decode)).splitOn c := by
        rw [decode_intercalate h]
    _ = (bytes.splitOn (.ofNat c.toNat)).map decode := List.splitOn_intercalate c hnot hne

/-- Only its own bytes are decoded to a text of plain characters. -/
theorem decode_eq_iff {text : Text} (h : ∀ c ∈ text, IsPlain c) {bytes : List UInt8} :
    decode bytes = text ↔ bytes = encode text := by
  constructor
  · rintro rfl
    exact (encode_decode_of_plain h).symm
  · rintro rfl
    exact decode_encode text

theorem decode_eq_nil_iff {bytes : List UInt8} : decode bytes = [] ↔ bytes = [] :=
  decode_eq_iff (by simp)

theorem head?_decode (h : IsPlain c) (bytes : List UInt8) :
    (decode bytes).head? = some c ↔ bytes.head? = some (.ofNat c.toNat) := by
  have hfirst : ((decode bytes).splitOn c).head? = some [] ↔
      (bytes.splitOn (.ofNat c.toNat)).head? = some [] := by
    simp [splitOn_decode h, List.head?_map, decode_eq_nil_iff]
  rw [head?_splitOn_eq_nil_iff, head?_splitOn_eq_nil_iff, decode_eq_nil_iff] at hfirst
  rcases List.eq_nil_or_concat bytes with rfl | ⟨front, last, rfl⟩
  · simp
  · simpa using hfirst

end Utf8

end PathIgnore
