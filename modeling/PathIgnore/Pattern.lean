import PathIgnore.Text.Escape

/-!
# Patterns

A pattern is a list of tokens: literal characters and three kinds of wildcard. `Pattern.ofText`
reads a pattern from its written form in one pass over the glyphs, in which only an unescaped `*`
and an unescaped `/` have a meaning of their own.
-/

namespace PathIgnore

/-- One token of a pattern. -/
inductive Token where
  /-- The character itself. -/
  | literal (c : Char)
  /-- `*`: any run of characters inside one component, so without `/`. -/
  | component
  /-- `**`: any run of characters on one line, so without a newline. -/
  | anything
  /-- `**/` at the start of a component: nothing, or any run on one line and a `/` after it. -/
  | directories
  deriving DecidableEq, Repr

/-- A pattern is the list of its tokens. -/
abbrev Pattern := List Token

namespace Pattern

/-- The token of a run of stars that stands for itself, by the length of the run. -/
def ofStars : Nat → Pattern
  | 0 => []
  | 1 => [.component]
  | _ => [.anything]

/-- Reads the tokens that follow a run of `stars` stars. `fresh` says that the run, or the next
glyph when there is none, stands at the start of a component: at the very start, directly after a
plain `/`, or directly after a `**/` that was read as one token. -/
def ofGlyphs : Bool → Nat → List Text.Glyph → Pattern
  | _, stars, [] => ofStars stars
  | fresh, stars, .plain c :: rest =>
    if c = '*' then ofGlyphs fresh (stars + 1) rest
    else if c = '/' then
      if fresh && 2 ≤ stars then .directories :: ofGlyphs true 0 rest
      else ofStars stars ++ .literal '/' :: ofGlyphs true 0 rest
    else ofStars stars ++ .literal c :: ofGlyphs false 0 rest
  | _, stars, .escaped c :: rest => ofStars stars ++ .literal c :: ofGlyphs false 0 rest

/-- The pattern that a text writes. -/
def ofText (text : Text) : Pattern :=
  ofGlyphs true 0 (Text.glyphs text)

@[simp] theorem ofGlyphs_star (fresh : Bool) (stars : Nat) (rest : List Text.Glyph) :
    ofGlyphs fresh stars (.plain '*' :: rest) = ofGlyphs fresh (stars + 1) rest := rfl

@[simp] theorem ofGlyphs_escaped (fresh : Bool) (stars : Nat) (c : Char)
    (rest : List Text.Glyph) :
    ofGlyphs fresh stars (.escaped c :: rest) =
      ofStars stars ++ .literal c :: ofGlyphs false 0 rest := rfl

theorem ofGlyphs_slash (fresh : Bool) (stars : Nat) (rest : List Text.Glyph) :
    ofGlyphs fresh stars (.plain '/' :: rest) =
      if fresh && 2 ≤ stars then .directories :: ofGlyphs true 0 rest
      else ofStars stars ++ .literal '/' :: ofGlyphs true 0 rest := rfl

theorem ofGlyphs_plain (fresh : Bool) (stars : Nat) {c : Char} (hstar : c ≠ '*')
    (hslash : c ≠ '/') (rest : List Text.Glyph) :
    ofGlyphs fresh stars (.plain c :: rest) =
      ofStars stars ++ .literal c :: ofGlyphs false 0 rest := by
  simp [ofGlyphs, hstar, hslash]

end Pattern

end PathIgnore
