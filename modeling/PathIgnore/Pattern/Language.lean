import PathIgnore.Pattern.Search

/-!
# The language of a pattern

A token denotes texts, and a pattern denotes the texts that can be cut into consecutive pieces, one
for each token. Main statements: `Pattern.pull` gives exactly the places from which a denoted text
leads to a place of the set (`pull_marks` with `leadsTo_eq_true_iff`), and `Pattern.accepts` accepts
exactly the denoted texts (`accepts_iff`).
-/

namespace PathIgnore

/-- The texts that a token denotes. -/
inductive Token.Denotes : Token → Text → Prop where
  | literal (c : Char) : Token.Denotes (.literal c) [c]
  | component {run : Text} (h : ∀ c ∈ run, c ≠ '/') : Token.Denotes .component run
  | anything {run : Text} (h : ∀ c ∈ run, c ≠ '\n') : Token.Denotes .anything run
  | noDirectory : Token.Denotes .directories []
  | directories {run : Text} (h : ∀ c ∈ run, c ≠ '\n') :
      Token.Denotes .directories (run ++ ['/'])

/-- The texts that a pattern denotes: a piece for each token, one after the other. -/
inductive Pattern.Denotes : Pattern → Text → Prop where
  | nil : Pattern.Denotes [] []
  | cons {token : Token} {pattern : Pattern} {piece rest : Text} (first : token.Denotes piece)
      (more : Pattern.Denotes pattern rest) : Pattern.Denotes (token :: pattern) (piece ++ rest)

namespace Token

/-- Whether some text that the token denotes leads to a rest that satisfies `accept`. -/
def leadsTo (accept : Text → Bool) : Token → Text → Bool
  | .literal c => afterLiteral c accept
  | .component => afterRun (· != '/') accept
  | .anything => afterRun (· != '\n') accept
  | .directories => fun text => accept text || afterRun (· != '\n') (afterLiteral '/' accept) text

theorem pull_marks (token : Token) (accept : Text → Bool) (text : Text) :
    token.pull (Index.of text) (marks accept text) = marks (token.leadsTo accept) text := by
  cases token with
  | literal c => rw [Token.pull, Index.before_of, stepBack_marks, leadsTo]
  | component => rw [Token.pull, Index.inComponent_of, runBack_marks, leadsTo]
  | anything => rw [Token.pull, Index.inLine_of, runBack_marks, leadsTo]
  | directories =>
    rw [Token.pull, Index.before_of, Index.inLine_of, stepBack_marks, runBack_marks, marks_or]
    rfl

theorem afterLiteral_eq_true_iff {c : Char} {accept : Text → Bool} {text : Text} :
    afterLiteral c accept text = true ↔ ∃ rest, text = c :: rest ∧ accept rest := by
  cases text with
  | nil => simp [afterLiteral]
  | cons x rest => simp [afterLiteral, and_assoc]

theorem leadsTo_eq_true_iff {token : Token} {accept : Text → Bool} {text : Text} :
    token.leadsTo accept text = true ↔
      ∃ piece rest, text = piece ++ rest ∧ token.Denotes piece ∧ accept rest := by
  cases token with
  | literal c =>
    rw [leadsTo, afterLiteral_eq_true_iff]
    constructor
    · rintro ⟨rest, rfl, h⟩; exact ⟨[c], rest, rfl, .literal c, h⟩
    · rintro ⟨_, rest, rfl, hpiece, h⟩
      cases hpiece with
      | literal => exact ⟨rest, rfl, h⟩
  | component =>
    rw [leadsTo, afterRun_eq_true_iff]
    constructor
    · rintro ⟨run, rest, rfl, hrun, h⟩
      exact ⟨run, rest, rfl, .component (by simpa using hrun), h⟩
    · rintro ⟨_, rest, rfl, hpiece, h⟩
      cases hpiece with
      | component hrun => exact ⟨_, rest, rfl, by simpa using hrun, h⟩
  | anything =>
    rw [leadsTo, afterRun_eq_true_iff]
    constructor
    · rintro ⟨run, rest, rfl, hrun, h⟩
      exact ⟨run, rest, rfl, .anything (by simpa using hrun), h⟩
    · rintro ⟨_, rest, rfl, hpiece, h⟩
      cases hpiece with
      | anything hrun => exact ⟨_, rest, rfl, by simpa using hrun, h⟩
  | directories =>
    simp only [leadsTo, Bool.or_eq_true, afterRun_eq_true_iff, afterLiteral_eq_true_iff]
    constructor
    · rintro (h | ⟨run, _, rfl, hrun, rest, rfl, h⟩)
      · exact ⟨[], text, rfl, .noDirectory, h⟩
      · exact ⟨run ++ ['/'], rest, by simp, .directories (by simpa using hrun), h⟩
    · rintro ⟨_, rest, rfl, hpiece, h⟩
      cases hpiece with
      | noDirectory => exact .inl h
      | @directories run hrun =>
        exact .inr ⟨run, '/' :: rest, by simp, by simpa using hrun, rest, rfl, h⟩

end Token

namespace Pattern

/-- Whether some text that the pattern denotes leads to a rest that satisfies `accept`. -/
def leadsTo (pattern : Pattern) (accept : Text → Bool) : Text → Bool :=
  pattern.foldr (fun token accept => token.leadsTo accept) accept

@[simp] theorem leadsTo_cons (token : Token) (pattern : Pattern) (accept : Text → Bool) :
    leadsTo (token :: pattern) accept = token.leadsTo (leadsTo pattern accept) := rfl

theorem pull_marks (pattern : Pattern) (accept : Text → Bool) (text : Text) :
    pattern.pull (Index.of text) (marks accept text) = marks (pattern.leadsTo accept) text := by
  induction pattern with
  | nil => rfl
  | cons token pattern ih => rw [pull_cons, ih, Token.pull_marks, leadsTo_cons]

theorem leadsTo_eq_true_iff {pattern : Pattern} {accept : Text → Bool} {text : Text} :
    pattern.leadsTo accept text = true ↔
      ∃ piece rest, text = piece ++ rest ∧ pattern.Denotes piece ∧ accept rest := by
  induction pattern generalizing text with
  | nil =>
    constructor
    · intro h; exact ⟨[], text, rfl, .nil, h⟩
    · rintro ⟨_, rest, rfl, ⟨⟩, h⟩; exact h
  | cons token pattern ih =>
    rw [leadsTo_cons, Token.leadsTo_eq_true_iff]
    constructor
    · rintro ⟨piece, _, rfl, hpiece, h⟩
      obtain ⟨more, rest, rfl, hmore, h⟩ := ih.1 h
      exact ⟨piece ++ more, rest, by simp, .cons hpiece hmore, h⟩
    · rintro ⟨_, rest, rfl, hpiece, h⟩
      cases hpiece with
      | @cons _ _ piece more first hmore =>
        exact ⟨piece, more ++ rest, by simp, first, ih.2 ⟨more, rest, rfl, hmore, h⟩⟩

theorem accepts_eq_leadsTo (pattern : Pattern) (text : Text) :
    pattern.accepts text = pattern.leadsTo List.isEmpty text := by
  rw [accepts, ← marks_isEmpty text, pull_marks]
  exact testBit_marks_length _ text

/-- A pattern accepts exactly the texts that it denotes. -/
theorem accepts_iff {pattern : Pattern} {text : Text} :
    pattern.accepts text = true ↔ pattern.Denotes text := by
  rw [accepts_eq_leadsTo]
  simp only [leadsTo_eq_true_iff, List.isEmpty_iff]
  constructor
  · rintro ⟨piece, _, rfl, hpiece, rfl⟩
    simpa using hpiece
  · intro h
    exact ⟨text, [], by simp, h, rfl⟩

theorem denotes_append {p q : Pattern} {s t : Text} (hp : p.Denotes s) (hq : q.Denotes t) :
    Pattern.Denotes (p ++ q) (s ++ t) := by
  induction hp with
  | nil => exact hq
  | cons first _ ih =>
    rw [List.append_assoc]
    exact .cons first ih

end Pattern

end PathIgnore
