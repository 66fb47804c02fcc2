/-!
# Texts

A text is the list of its characters. This module cuts a text into lines and drops a byte order
mark. Lines end at newlines; a carriage return just before a newline belongs to the line ending.
-/

namespace PathIgnore

/-- A text is the list of its characters. -/
abbrev Text := List Char

namespace Text

/-- The line without the carriage return that ends it, if one does. -/
def dropCarriageReturn (line : Text) : Text :=
  if line.getLast? = some '\r' then line.dropLast else line

/-- The lines that the pieces between newlines stand for. Every piece but the last was ended by a
newline; the last one is a line only if it holds something, and keeps a carriage return. -/
def linesOfPieces : List Text → List Text
  | [] => []
  | [last] => if last.isEmpty then [] else [last]
  | piece :: next :: rest => dropCarriageReturn piece :: linesOfPieces (next :: rest)

/-- The lines of a text. A final newline starts no further line. -/
def lines (text : Text) : List Text :=
  linesOfPieces (text.splitOn '\n')

/-- The text without one leading byte order mark. -/
def dropByteOrderMark : Text → Text
  | '\uFEFF' :: rest => rest
  | text => text

@[simp] theorem lines_nil : lines [] = [] := rfl

@[simp] theorem dropCarriageReturn_concat (line : Text) (c : Char) :
    dropCarriageReturn (line ++ [c]) = if c = '\r' then line else line ++ [c] := by
  by_cases h : c = '\r' <;> simp [dropCarriageReturn, h]

@[simp] theorem dropByteOrderMark_cons (rest : Text) :
    dropByteOrderMark ('\uFEFF' :: rest) = rest := rfl

theorem dropByteOrderMark_of_head?_ne {text : Text} (h : text.head? ≠ some '\uFEFF') :
    dropByteOrderMark text = text := by
  unfold dropByteOrderMark
  split
  · simp at h
  · rfl

end Text

end PathIgnore
