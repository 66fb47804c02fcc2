import PathIgnore.Text

/-!
# JSON

A reader for JSON texts. Numbers are checked and not read. A string may hold half of a surrogate
pair as an escape; such a string is well formed and has no text.
-/

namespace PathIgnore

/-- A JSON value. -/
inductive Json where
  | null
  | bool (value : Bool)
  | number
  /-- A string, and its text unless half of a surrogate pair stands in it alone. -/
  | string (text : Option Text)
  | array (values : List Json)
  | object (members : List (Option Text × Json))

namespace Json

/-- The text without leading white space. -/
def skipSpace (text : Text) : Text :=
  text.dropWhile fun c => c = ' ' || c = '\n' || c = '\t' || c = '\r'

/-! ## Strings -/

/-- What stands in a string: a character, or a code unit written as four hexadecimal digits. -/
inductive Mark where
  | char (c : Char)
  | unit (value : Nat)
  deriving DecidableEq, Repr

/-- The value of a hexadecimal digit. -/
def hexDigit? (c : Char) : Option Nat :=
  if '0' ≤ c ∧ c ≤ '9' then some (c.toNat - '0'.toNat)
  else if 'a' ≤ c ∧ c ≤ 'f' then some (c.toNat - 'a'.toNat + 10)
  else if 'A' ≤ c ∧ c ≤ 'F' then some (c.toNat - 'A'.toNat + 10)
  else none

/-- The value of four hexadecimal digits. -/
def hexUnit? (a b c d : Char) : Option Nat := do
  let a ← hexDigit? a
  let b ← hexDigit? b
  let c ← hexDigit? c
  let d ← hexDigit? d
  some (((a * 16 + b) * 16 + c) * 16 + d)

/-- The character that a letter after a backslash stands for. -/
def escape? : Char → Option Char
  | '"' => some '"'
  | '\\' => some '\\'
  | '/' => some '/'
  | 'b' => some '\x08'
  | 'f' => some '\x0C'
  | 'n' => some '\n'
  | 'r' => some '\r'
  | 't' => some '\t'
  | _ => none

/-- Reads a string after its opening quotation mark: what stands in it, and the text after it. -/
def readString : Text → Option (List Mark × Text)
  | [] => none
  | '"' :: rest => some ([], rest)
  | '\\' :: 'u' :: a :: b :: c :: d :: rest => do
    let unit ← hexUnit? a b c d
    let (marks, rest) ← readString rest
    some (.unit unit :: marks, rest)
  | '\\' :: letter :: rest => do
    let c ← escape? letter
    let (marks, rest) ← readString rest
    some (.char c :: marks, rest)
  | c :: rest => do
    if c < ' ' || c = '\\' then none
    else
      let (marks, rest) ← readString rest
      some (.char c :: marks, rest)

/-- The text of a string, if every surrogate in it is paired. -/
def textOf : List Mark → Option Text
  | [] => some []
  | .char c :: rest => (c :: ·) <$> textOf rest
  | .unit high :: .unit low :: rest =>
    if high < 0xD800 ∨ 0xDFFF < high then (Char.ofNat high :: ·) <$> textOf (.unit low :: rest)
    else if high < 0xDC00 ∧ 0xDC00 ≤ low ∧ low ≤ 0xDFFF then
      (Char.ofNat (0x10000 + (high - 0xD800) * 0x400 + (low - 0xDC00)) :: ·) <$> textOf rest
    else none
  | .unit value :: rest =>
    if value < 0xD800 ∨ 0xDFFF < value then (Char.ofNat value :: ·) <$> textOf rest else none

/-! ## Numbers -/

/-- Whether the character is a decimal digit. -/
def isDigit (c : Char) : Bool :=
  '0' ≤ c && c ≤ '9'

/-- The text after one or more digits. -/
def skipDigits? : Text → Option Text
  | c :: rest => if isDigit c then some (rest.dropWhile isDigit) else none
  | [] => none

/-- The text after the digits before the point. A zero there stands alone. -/
def skipWhole? : Text → Option Text
  | '0' :: c :: rest => if isDigit c then none else some (c :: rest)
  | text => skipDigits? text

/-- The text after a point and digits, if there is a point. -/
def skipFraction? : Text → Option Text
  | '.' :: rest => skipDigits? rest
  | text => some text

/-- The text after a sign. -/
def skipSign : Text → Text
  | '+' :: rest => rest
  | '-' :: rest => rest
  | text => text

/-- The text after an exponent, if there is one. -/
def skipExponent? : Text → Option Text
  | 'e' :: rest => skipDigits? (skipSign rest)
  | 'E' :: rest => skipDigits? (skipSign rest)
  | text => some text

/-- The text after a number, which may start with a minus sign. -/
def skipNumber? (text : Text) : Option Text := do
  let text ← skipWhole? (match text with
    | '-' :: rest => rest
    | text => text)
  let text ← skipFraction? text
  skipExponent? text

/-! ## Values -/

/-- The text after the given word. -/
def skipWord? (word : String) (text : Text) : Option Text :=
  List.isPrefixOf? word.toList text

mutual

/-- Reads a value: the value and the text after it. Each step takes one from `fuel`. -/
def readValue : Nat → Text → Option (Json × Text)
  | 0, _ => none
  | fuel + 1, text =>
    match skipSpace text with
    | '"' :: rest => (fun (marks, rest) => (.string (textOf marks), rest)) <$> readString rest
    | '[' :: rest =>
      match skipSpace rest with
      | ']' :: rest => some (.array [], rest)
      | _ => (fun (values, rest) => (.array values, rest)) <$> readValues fuel rest
    | '\x7b' :: rest =>
      match skipSpace rest with
      | '\x7d' :: rest => some (.object [], rest)
      | _ => (fun (members, rest) => (.object members, rest)) <$> readMembers fuel rest
    | 'n' :: rest => (.null, ·) <$> skipWord? "ull" rest
    | 't' :: rest => (.bool true, ·) <$> skipWord? "rue" rest
    | 'f' :: rest => (.bool false, ·) <$> skipWord? "alse" rest
    | text => (.number, ·) <$> skipNumber? text

/-- Reads the values of an array, of which there is one at least. -/
def readValues : Nat → Text → Option (List Json × Text)
  | 0, _ => none
  | fuel + 1, text => do
    let (value, rest) ← readValue fuel text
    match skipSpace rest with
    | ',' :: rest => (fun (values, rest) => (value :: values, rest)) <$> readValues fuel rest
    | ']' :: rest => some ([value], rest)
    | _ => none

/-- Reads the members of an object, of which there is one at least. -/
def readMembers : Nat → Text → Option (List (Option Text × Json) × Text)
  | 0, _ => none
  | fuel + 1, text =>
    match skipSpace text with
    | '"' :: rest => do
      let (marks, rest) ← readString rest
      match skipSpace rest with
      | ':' :: rest => do
        let (value, rest) ← readValue fuel rest
        match skipSpace rest with
        | ',' :: rest =>
          (fun (members, rest) => ((textOf marks, value) :: members, rest)) <$>
            readMembers fuel rest
        | '\x7d' :: rest => some ([(textOf marks, value)], rest)
        | _ => none
      | _ => none
    | _ => none

end

/-- The value that a whole text writes. Every two steps take a character at least, so the fuel
suffices. -/
def parse? (text : Text) : Option Json := do
  let (value, rest) ← readValue (2 * text.length + 2) text
  if (skipSpace rest).isEmpty then some value else none

/-! ## Writing -/

/-- A character as a JSON string writes it. -/
def encodeChar (c : Char) : Text :=
  if c = '\x08' then ['\\', 'b']
  else if c = '\t' then ['\\', 't']
  else if c = '\n' then ['\\', 'n']
  else if c = '\x0C' then ['\\', 'f']
  else if c = '\r' then ['\\', 'r']
  else if c = '"' || c = '\\' then ['\\', c]
  else if c < ' ' then
    ['\\', 'u', '0', '0'] ++ Nat.toDigits 16 (c.toNat / 16) ++ Nat.toDigits 16 (c.toNat % 16)
  else [c]

/-- A text as a JSON string. -/
def encodeText (text : Text) : Text :=
  '"' :: (text.flatMap encodeChar ++ ['"'])

end Json

end PathIgnore
