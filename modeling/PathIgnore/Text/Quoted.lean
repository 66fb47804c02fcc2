import PathIgnore.NativePath
import PathIgnore.Text.Printable

/-!
# Quoted texts

A quoted text stands between quotation marks on one line. What is not printable is written as an
escape, and bytes that encode no character as two hexadecimal digits each.
-/

namespace PathIgnore.Text.Quoted

/-- A character as a quoted text writes it. -/
def encodeChar (c : Char) : Text :=
  if c = '\x00' then ['\\', '0']
  else if c = '\t' then ['\\', 't']
  else if c = '\n' then ['\\', 'n']
  else if c = '\r' then ['\\', 'r']
  else if c = '"' || c = '\\' then ['\\', c]
  else if Text.isPrintable c then [c]
  else ['\\', 'u', '\x7b'] ++ Nat.toDigits 16 c.toNat ++ ['\x7d']

/-- A text between quotation marks. -/
def encode (text : Text) : Text :=
  '"' :: (text.flatMap encodeChar ++ ['"'])

/-- An optional text, with the name of the case that applies. -/
def encodeOption : Option Text → Text
  | none => "None".toList
  | some text => "Some(".toList ++ encode text ++ [')']

/-- A byte as two hexadecimal digits in upper case. -/
def encodeByte (byte : UInt8) : Text :=
  ['\\', 'x'] ++
    (Nat.toDigits 16 (byte.toNat / 16) ++ Nat.toDigits 16 (byte.toNat % 16)).map Char.toUpper

/-- A piece of a byte string as a quoted path writes it. -/
def encodePiece : Utf8.Piece → Text
  | .char c => encodeChar c
  | .broken bytes => bytes.flatMap encodeByte

/-- A native path between quotation marks. -/
def encodePath (path : NativePath) : Text :=
  '"' :: ((Utf8.pieces path.bytes).flatMap encodePiece ++ ['"'])

end PathIgnore.Text.Quoted
