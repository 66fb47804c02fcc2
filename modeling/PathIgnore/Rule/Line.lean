import PathIgnore.Text.Escape

/-!
# Rule lines

The grammar of one line of a rule file. `RuleLine.parse?` takes a line apart into its markers and
the text of its pattern; a line that holds no rule has no parts.

Around the pattern, a line may start with `!`, which negates the rule, and end with `/`, which
limits the rule to directories. A `/` before the last character of what is left ties the pattern to
the directory of the rule file.
-/

namespace PathIgnore

/-- The parts of a line that holds a rule. -/
structure RuleLine where
  negated : Bool
  anchored : Bool
  directoryOnly : Bool
  /-- The pattern as written, with its escapes. -/
  source : Text
  deriving DecidableEq, Repr

namespace RuleLine

/-- Whether a trimmed line starts with the marker `!`, and what follows it. -/
def takeNegation : Text → Bool × Text
  | '!' :: rest => (true, rest)
  | line => (false, line)

/-- Whether a line ends with the marker `/`, and what stands before it. A `/` that is taken
literally is no marker. -/
def takeDirectoryMarker (line : Text) : Bool × Text :=
  if line.getLast? = some '/' && !Text.endsInEscape line.dropLast then (true, line.dropLast)
  else (false, line)

/-- Whether a `/` stands before the last character. -/
def isAnchored (body : Text) : Bool :=
  body.dropLast.contains '/'

/-- The text without one leading `/`. -/
def dropLeadingSlash : Text → Text
  | '/' :: rest => rest
  | body => body

/-- The parts of a line, or none if the line is blank, a comment, or all markers. -/
def parse? (line : Text) : Option RuleLine :=
  let trimmed := Text.trimEnd (Text.trimStart line)
  if trimmed.isEmpty || trimmed.head? = some '#' then none
  else
    let (negated, rest) := takeNegation trimmed
    let (directoryOnly, body) := takeDirectoryMarker rest
    let source := dropLeadingSlash body
    if source.isEmpty then none
    else some ⟨negated, isAnchored body, directoryOnly, source⟩

/-- The parts of every line that holds a rule, in file order. A byte order mark may precede the
first line. -/
def parseAll : List Text → List RuleLine
  | [] => []
  | first :: rest => (Text.dropByteOrderMark first :: rest).filterMap parse?

@[simp] theorem parseAll_nil : parseAll [] = [] := rfl

theorem takeNegation_of_head?_ne {line : Text} (h : line.head? ≠ some '!') :
    takeNegation line = (false, line) := by
  unfold takeNegation
  split
  · simp at h
  · rfl

theorem dropLeadingSlash_of_head?_ne {body : Text} (h : body.head? ≠ some '/') :
    dropLeadingSlash body = body := by
  unfold dropLeadingSlash
  split
  · simp at h
  · rfl

theorem takeDirectoryMarker_concat (line : Text) (c : Char) :
    takeDirectoryMarker (line ++ [c]) =
      if c = '/' && !Text.endsInEscape line then (true, line) else (false, line ++ [c]) := by
  simp [takeDirectoryMarker]

end RuleLine

end PathIgnore
