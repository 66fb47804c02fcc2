import PathIgnore.Text.Blank

/-!
# Backslash escapes

Reading from the left, a backslash takes the character after it literally; a backslash at the very
end stands for itself. Reading from the right, whether the next character would be taken literally
is the parity of the run of backslashes that ends the text. Both readings are here, with the
trimming of trailing blanks, which stops at a blank that is taken literally.
-/

namespace PathIgnore.Text

/-- A character of an escaped text, and whether a backslash took it literally. -/
inductive Glyph where
  | plain (c : Char)
  | escaped (c : Char)
  deriving DecidableEq, Repr

/-- The character that a glyph stands for. -/
def Glyph.char : Glyph → Char
  | .plain c => c
  | .escaped c => c

/-- The glyphs of a text, read from the left. -/
def glyphs : Text → List Glyph
  | [] => []
  | '\\' :: c :: rest => .escaped c :: glyphs rest
  | c :: rest => .plain c :: glyphs rest

/-- The text with every escape resolved. -/
def unescape (text : Text) : Text :=
  (glyphs text).map Glyph.char

/-- The text with a backslash before every character that `keep` does not spare. -/
def escapeExcept (keep : Char → Bool) : Text → Text
  | [] => []
  | c :: rest => if keep c then c :: escapeExcept keep rest else '\\' :: c :: escapeExcept keep rest

/-- Whether a reversed text starts with an odd number of backslashes. -/
def startsOddRun (reversed : Text) : Bool :=
  (reversed.takeWhile (· == '\\')).length % 2 == 1

/-- Whether a character put after the text would be taken literally. -/
def endsInEscape (text : Text) : Bool :=
  startsOddRun text.reverse

/-- `trimEnd` on the reversed text. -/
def trimEndReversed : Text → Text
  | [] => []
  | c :: rest => if isBlank c && !startsOddRun rest then trimEndReversed rest else c :: rest

/-- The text without its trailing blanks, up to the first one that an escape keeps. -/
def trimEnd (text : Text) : Text :=
  (trimEndReversed text.reverse).reverse

@[simp] theorem glyphs_nil : glyphs [] = [] := rfl

@[simp] theorem glyphs_escape (c : Char) (rest : Text) :
    glyphs ('\\' :: c :: rest) = .escaped c :: glyphs rest := rfl

theorem glyphs_cons_of_ne {c : Char} (h : c ≠ '\\') (rest : Text) :
    glyphs (c :: rest) = .plain c :: glyphs rest := by
  rw [glyphs]
  simp [h]

@[simp] theorem glyphs_dangling : glyphs ['\\'] = [.plain '\\'] := rfl

@[simp] theorem unescape_escape (c : Char) (rest : Text) :
    unescape ('\\' :: c :: rest) = c :: unescape rest := rfl

theorem unescape_cons_of_ne {c : Char} (h : c ≠ '\\') (rest : Text) :
    unescape (c :: rest) = c :: unescape rest := by
  simp [unescape, glyphs_cons_of_ne h, Glyph.char]

theorem unescape_escapeExcept {keep : Char → Bool} (h : keep '\\' = false) (text : Text) :
    unescape (escapeExcept keep text) = text := by
  induction text with
  | nil => rfl
  | cons c rest ih =>
    by_cases hc : keep c
    · have : c ≠ '\\' := fun e => by simp [e, h] at hc
      simp [escapeExcept, hc, unescape_cons_of_ne this, ih]
    · simp [escapeExcept, hc, ih]

@[simp] theorem startsOddRun_cons_backslash (reversed : Text) :
    startsOddRun ('\\' :: reversed) = !startsOddRun reversed := by
  simp only [startsOddRun, List.takeWhile_cons, beq_self_eq_true, if_true, List.length_cons]
  rcases Nat.mod_two_eq_zero_or_one (reversed.takeWhile (· == '\\')).length with h | h <;>
    simp [Nat.add_mod, h]

theorem startsOddRun_cons_of_ne {c : Char} (h : c ≠ '\\') (reversed : Text) :
    startsOddRun (c :: reversed) = false := by
  simp [startsOddRun, h]

@[simp] theorem endsInEscape_concat_backslash (text : Text) :
    endsInEscape (text ++ ['\\']) = !endsInEscape text := by
  simp [endsInEscape]

theorem endsInEscape_concat_of_ne {c : Char} (h : c ≠ '\\') (text : Text) :
    endsInEscape (text ++ [c]) = false := by
  simp [endsInEscape, startsOddRun_cons_of_ne h]

@[simp] theorem trimEnd_nil : trimEnd [] = [] := rfl

theorem trimEnd_concat (text : Text) (c : Char) :
    trimEnd (text ++ [c]) =
      if isBlank c && !endsInEscape text then trimEnd text else text ++ [c] := by
  have h : (text ++ [c]).reverse = c :: text.reverse := by simp
  rw [trimEnd, h, trimEndReversed, endsInEscape]
  split
  · rfl
  · rw [← h, List.reverse_reverse]

end PathIgnore.Text
