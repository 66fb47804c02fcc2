import PathIgnore.Text

/-!
# Blank characters

The Unicode property `White_Space`: the twenty-five characters that count as blank around a rule
line.
-/

namespace PathIgnore.Text

/-- The ranges of code points with the property `White_Space`, first and last included. -/
def blankRanges : List (Nat × Nat) :=
  [(0x0009, 0x000D), (0x0020, 0x0020), (0x0085, 0x0085), (0x00A0, 0x00A0), (0x1680, 0x1680),
   (0x2000, 0x200A), (0x2028, 0x2029), (0x202F, 0x202F), (0x205F, 0x205F), (0x3000, 0x3000)]

/-- Whether a character is blank. -/
def isBlank (c : Char) : Bool :=
  blankRanges.any fun range => range.1 ≤ c.toNat && c.toNat ≤ range.2

/-- The text without its leading blanks. -/
def trimStart (text : Text) : Text :=
  text.dropWhile isBlank

@[simp] theorem isBlank_backslash : isBlank '\\' = false := by decide

@[simp] theorem isBlank_slash : isBlank '/' = false := by decide

@[simp] theorem trimStart_nil : trimStart [] = [] := rfl

theorem trimStart_append_of_blank {blanks : Text} (h : ∀ c ∈ blanks, isBlank c) (text : Text) :
    trimStart (blanks ++ text) = trimStart text := by
  simpa [trimStart] using List.dropWhile_append_of_pos h

end PathIgnore.Text
