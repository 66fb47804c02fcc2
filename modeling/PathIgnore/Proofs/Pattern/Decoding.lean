import Mathlib.Logic.Function.Basic
import PathIgnore.Proofs.Pattern.Spelling
import PathIgnore.Proofs.Text.Codec

/-!
# Reading expressions back

The expressions of the tokens of a pattern stand one after the other with nothing between them. They
can still be told apart: a metacharacter that stands for itself has a backslash before it, so the
first character of an expression says of which kind its token is. Main statements: a pattern is read
back from its expression (`read?_expression`), so it is determined by it (`expression_injective`),
and what is searched for is what the expression says (`matchesWhole_iff_read?_denotes`).
-/

namespace PathIgnore

namespace Token

/-- Reads the token whose expression a text starts with, and what follows it. -/
def read? : Text → Option (Token × Text)
  | '\\' :: c :: rest => some (.literal c, rest)
  | '[' :: '^' :: '/' :: ']' :: '*' :: rest => some (.component, rest)
  | '.' :: '*' :: rest => some (.anything, rest)
  | '(' :: '?' :: ':' :: '.' :: '*' :: '/' :: ')' :: '?' :: rest => some (.directories, rest)
  | c :: rest => if c ∈ metacharacters then none else some (.literal c, rest)
  | [] => none

theorem read?_cons {c : Char} (h : c ∉ metacharacters) (rest : Text) :
    read? (c :: rest) = some (.literal c, rest) := by
  -- Each of the other kinds of expression starts with a metacharacter.
  have hne : ∀ d ∈ metacharacters, c ≠ d := fun d hd hcd => h (hcd ▸ hd)
  rw [read?, if_neg h]
  · exact fun _ _ hc _ => hne '\\' (by decide) hc
  · exact fun _ hc _ => hne '[' (by decide) hc
  · exact fun _ hc _ => hne '.' (by decide) hc
  · exact fun _ hc _ => hne '(' (by decide) hc

theorem read?_expression_append (token : Token) (rest : Text) :
    read? (token.expression ++ rest) = some (token, rest) := by
  cases token with
  | literal c =>
    by_cases h : c ∈ metacharacters
    · rw [expression, if_pos h]
      rfl
    · rw [expression, if_neg h]
      exact read?_cons h rest
  | component => rfl
  | anything => rfl
  | directories => rfl

/-- The tokens of a pattern as they stand in its expression. -/
def codec : Text.Codec Token where
  write := expression
  read? := read?
  read?_write_append := read?_expression_append

end Token

namespace Pattern

/-- Reads the pattern that an expression is made of. -/
def read? : Text → Option Pattern
  | '^' :: text => Token.codec.readAll? ['$'] text
  | _ => none

theorem read?_expression (pattern : Pattern) : read? pattern.expression = some pattern :=
  Text.Codec.readAll?_flatMap_append rfl pattern

/-- Patterns with the same expression are the same. -/
theorem expression_injective : Function.Injective expression := by
  intro p q h
  have hread := read?_expression p
  rw [h, read?_expression] at hread
  exact (Option.some.inj hread).symm

/-- A written pattern matches, if it can be searched for, exactly the texts that are denoted by the
tokens that its expression is made of. -/
theorem matchesWhole_iff_read?_denotes {source text : Text} :
    matchesWhole source text = true ↔
      (Rule.patternOf source).isSome = true ∧
        ∃ pattern, read? (ofText source).expression = some pattern ∧ pattern.Denotes text := by
  rw [matchesWhole_iff_denotes, read?_expression, ← ofText_eq_tokens]
  simp only [Option.some.injEq, exists_eq_left']

end Pattern

end PathIgnore
