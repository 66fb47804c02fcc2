import PathIgnore.Text

/-!
# UTF-8

Texts as bytes. Encoding is total; decoding reads byte by byte and keeps going after an error: each
longest run of bytes that starts an encoding and is cut short, and each byte that starts none, is
one broken piece. `decode` puts a replacement character for every broken piece.
-/

namespace PathIgnore.Utf8

/-- The bytes of one character. -/
def encodeChar (c : Char) : List UInt8 :=
  let n := c.toNat
  if n < 0x80 then [.ofNat n]
  else if n < 0x800 then [.ofNat (0xC0 + n / 0x40), .ofNat (0x80 + n % 0x40)]
  else if n < 0x10000 then
    [.ofNat (0xE0 + n / 0x1000), .ofNat (0x80 + n / 0x40 % 0x40), .ofNat (0x80 + n % 0x40)]
  else
    [.ofNat (0xF0 + n / 0x40000), .ofNat (0x80 + n / 0x1000 % 0x40),
      .ofNat (0x80 + n / 0x40 % 0x40), .ofNat (0x80 + n % 0x40)]

/-- The bytes of a text. -/
def encode (text : Text) : List UInt8 :=
  text.flatMap encodeChar

/-- What decoding finds: a character, or bytes that encode none. -/
inductive Piece where
  | char (c : Char)
  | broken (bytes : List UInt8)
  deriving DecidableEq, Repr

/-- The character that a piece is shown as. -/
def Piece.shown : Piece → Char
  | .char c => c
  | .broken _ => '\uFFFD'

/-- An encoding that has been read in part. -/
structure Pending where
  /-- The bytes read so far. -/
  bytes : List UInt8
  /-- The code point as far as it is known. -/
  value : Nat
  /-- How many bytes are still owed. -/
  owed : Nat
  /-- The least value that the next byte may have. -/
  low : Nat
  /-- The greatest value that the next byte may have. -/
  high : Nat
  deriving DecidableEq, Repr

/-- Reads a byte between characters. The bounds on the second byte exclude encodings that are
longer than needed, surrogates, and code points past U+10FFFF. -/
def start (byte : UInt8) : List Piece × Option Pending :=
  let b := byte.toNat
  if b < 0x80 then ([.char (.ofNat b)], none)
  else if 0xC2 ≤ b ∧ b ≤ 0xDF then ([], some ⟨[byte], b - 0xC0, 1, 0x80, 0xBF⟩)
  else if b = 0xE0 then ([], some ⟨[byte], 0, 2, 0xA0, 0xBF⟩)
  else if b = 0xED then ([], some ⟨[byte], 0xD, 2, 0x80, 0x9F⟩)
  else if 0xE1 ≤ b ∧ b ≤ 0xEF then ([], some ⟨[byte], b - 0xE0, 2, 0x80, 0xBF⟩)
  else if b = 0xF0 then ([], some ⟨[byte], 0, 3, 0x90, 0xBF⟩)
  else if 0xF1 ≤ b ∧ b ≤ 0xF3 then ([], some ⟨[byte], b - 0xF0, 3, 0x80, 0xBF⟩)
  else if b = 0xF4 then ([], some ⟨[byte], 4, 3, 0x80, 0x8F⟩)
  else ([.broken [byte]], none)

/-- Reads a byte: the pieces that it completes and what is pending after it. -/
def step : Option Pending → UInt8 → List Piece × Option Pending
  | none, byte => start byte
  | some p, byte =>
    if p.low ≤ byte.toNat ∧ byte.toNat ≤ p.high then
      let value := 0x40 * p.value + (byte.toNat - 0x80)
      if p.owed ≤ 1 then ([.char (.ofNat value)], none)
      else ([], some ⟨p.bytes ++ [byte], value, p.owed - 1, 0x80, 0xBF⟩)
    else (.broken p.bytes :: (start byte).1, (start byte).2)

/-- The pieces of a byte string, read with something pending. -/
def piecesFrom : Option Pending → List UInt8 → List Piece
  | none, [] => []
  | some p, [] => [.broken p.bytes]
  | pending, byte :: rest =>
    (step pending byte).1 ++ piecesFrom (step pending byte).2 rest

/-- The pieces of a byte string. -/
def pieces (bytes : List UInt8) : List Piece :=
  piecesFrom none bytes

/-- The text of a byte string, with a replacement character for each broken piece. -/
def decode (bytes : List UInt8) : Text :=
  (pieces bytes).map Piece.shown

@[simp] theorem encode_nil : encode [] = [] := rfl

@[simp] theorem encode_cons (c : Char) (text : Text) :
    encode (c :: text) = encodeChar c ++ encode text := rfl

@[simp] theorem encode_append (s t : Text) : encode (s ++ t) = encode s ++ encode t := by
  simp [encode]

@[simp] theorem piecesFrom_none_nil : piecesFrom none [] = [] := rfl

@[simp] theorem piecesFrom_cons (pending : Option Pending) (byte : UInt8) (rest : List UInt8) :
    piecesFrom pending (byte :: rest) =
      (step pending byte).1 ++ piecesFrom (step pending byte).2 rest := by
  cases pending <;> rfl

@[simp] theorem decode_nil : decode [] = [] := rfl

/-- A byte below 0x80 is a character by itself and closes whatever is pending. -/
theorem start_ascii {byte : UInt8} (h : byte.toNat < 0x80) :
    start byte = ([.char (.ofNat byte.toNat)], none) := by
  simp [start, h]

end PathIgnore.Utf8
