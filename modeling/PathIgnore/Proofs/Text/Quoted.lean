import Mathlib.Tactic.IntervalCases
import PathIgnore.Json
import PathIgnore.Proofs.Text.Codec
import PathIgnore.Text.Quoted

/-!
# Reading quoted texts back

A quoted text is on one line, but nothing of it is lost: every character is read back from its
escape, and the quotation mark at the end stands for no character. Main statement: an optional text
is read back from its quoted form (`decodeOption?_encodeOption`).
-/

namespace PathIgnore.Text.Quoted

/-! ## Numbers -/

/-- Reads hexadecimal digits up to a closing brace, and what follows it. The digits before them have
the given value. -/
def readHex? (value : Nat) : Text → Option (Nat × Text)
  | '\x7d' :: rest => some (value, rest)
  | c :: rest => (Json.hexDigit? c).bind fun digit => readHex? (16 * value + digit) rest
  | [] => none

theorem readHex?_digitChar (value : Nat) {digit : Nat} (h : digit < 16) (rest : Text) :
    readHex? value (digit.digitChar :: rest) = readHex? (16 * value + digit) rest := by
  interval_cases digit <;> rfl

theorem readHex?_toDigits (n : Nat) (rest : Text) :
    readHex? 0 (Nat.toDigits 16 n ++ rest) = readHex? n rest := by
  induction n using Nat.strongRecOn generalizing rest with
  | ind n ih =>
    rw [Nat.toDigits_eq_if (by omega)]
    split
    · rename_i hlt
      rw [List.singleton_append, readHex?_digitChar 0 hlt, Nat.mul_zero, Nat.zero_add]
    · rw [List.append_assoc, ih (n / 16) (by omega), List.singleton_append,
        readHex?_digitChar _ (Nat.mod_lt n (by omega)), Nat.div_add_mod]

/-! ## Characters -/

/-- Reads the character that a text stands for after a backslash, and what follows it. -/
def readEscape? : Text → Option (Char × Text)
  | '0' :: rest => some ('\x00', rest)
  | 't' :: rest => some ('\t', rest)
  | 'n' :: rest => some ('\n', rest)
  | 'r' :: rest => some ('\r', rest)
  | 'u' :: '\x7b' :: rest => (readHex? 0 rest).map fun (value, rest) => (Char.ofNat value, rest)
  | c :: rest => some (c, rest)
  | [] => none

/-- Reads the character whose written form a text starts with, and what follows it. -/
def readChar? : Text → Option (Char × Text)
  | '\\' :: rest => readEscape? rest
  | '"' :: _ => none
  | c :: rest => some (c, rest)
  | [] => none

theorem readChar?_encodeChar_append (c : Char) (rest : Text) :
    readChar? (encodeChar c ++ rest) = some (c, rest) := by
  unfold encodeChar
  split_ifs with hnul htab hnewline hreturn hself hprintable
  · rw [hnul]; rfl
  · rw [htab]; rfl
  · rw [hnewline]; rfl
  · rw [hreturn]; rfl
  · obtain rfl | rfl : c = '"' ∨ c = '\\' := by simpa using hself
    · rfl
    · rfl
  · obtain ⟨hquote, hescape⟩ : c ≠ '"' ∧ c ≠ '\\' := by simpa using hself
    rw [List.singleton_append, readChar?]
    exacts [hescape, hquote]
  · simp only [List.cons_append, List.nil_append, List.append_assoc, readChar?, readEscape?,
      readHex?_toDigits, readHex?, Option.map_some, Char.ofNat_toNat]

/-- The characters of a quoted text. -/
def codec : Codec Char where
  write := encodeChar
  read? := readChar?
  read?_write_append := readChar?_encodeChar_append

/-! ## Optional texts -/

/-- Reads the optional text that a quoted form stands for. -/
def decodeOption? : Text → Option (Option Text)
  | 'N' :: 'o' :: 'n' :: 'e' :: [] => some none
  | 'S' :: 'o' :: 'm' :: 'e' :: '(' :: '"' :: rest => (codec.readAll? ['"', ')'] rest).map some
  | _ => none

theorem decodeOption?_encodeOption (text : Option Text) :
    decodeOption? (encodeOption text) = some text := by
  cases text with
  | none => rfl
  | some text =>
    have hread : codec.readAll? ['"', ')'] (text.flatMap encodeChar ++ ['"', ')']) = some text :=
      Codec.readAll?_flatMap_append rfl text
    change (codec.readAll? ['"', ')'] (text.flatMap encodeChar ++ ['"'] ++ [')'])).map some = _
    rw [List.append_assoc, List.singleton_append, hread, Option.map_some]

end PathIgnore.Text.Quoted
