import Mathlib.Data.List.Forall2
import PathIgnore.Proofs.Pattern.Spelling
import PathIgnore.Proofs.Text.Pieces

/-!
# Patterns component by component

Where every star stands by itself, a written pattern is read piece by piece, as its slashes divide
it, and no piece takes a `/` of the text. Main statement: such a pattern is found as a text just if
the text has as many pieces, and each piece of the pattern is found as the piece of the text
(`matchesWhole_iff_splitOn`).
-/

namespace PathIgnore

/-- No two stars stand side by side, unless one of them is taken literally. -/
def SingleStars (glyphs : List Text.Glyph) : Prop :=
  ¬[.plain '*', .plain '*'] <:+: glyphs

instance (glyphs : List Text.Glyph) : Decidable (SingleStars glyphs) :=
  inferInstanceAs (Decidable (¬_))

section SingleStars

variable {first rest : List Text.Glyph}

theorem SingleStars.left (h : SingleStars (first ++ rest)) : SingleStars first :=
  fun hstars => h (hstars.trans (List.prefix_append first rest).isInfix)

theorem SingleStars.right (h : SingleStars (first ++ rest)) : SingleStars rest :=
  fun hstars => h (hstars.trans (List.suffix_append first rest).isInfix)

theorem SingleStars.tail {glyph : Text.Glyph} (h : SingleStars (glyph :: rest)) :
    SingleStars rest :=
  fun hstars => h (hstars.trans (List.suffix_cons glyph rest).isInfix)

theorem SingleStars.lt_two {stars : Nat} (h : SingleStars (List.replicate stars (.plain '*'))) :
    stars < 2 := by
  by_contra hge
  obtain ⟨n, rfl⟩ : ∃ n, stars = 2 + n := ⟨stars - 2, by omega⟩
  rw [List.replicate_add] at h
  exact h (List.prefix_append _ _).isInfix

end SingleStars

namespace Token

/-- The token takes characters of one component only. -/
def IsInside (token : Token) : Prop :=
  token = .component ∨ ∃ c, c ≠ '/' ∧ token = .literal c

theorem IsInside.not_mem {token : Token} (h : token.IsInside) {piece : Text}
    (hpiece : token.Denotes piece) : '/' ∉ piece := by
  rcases h with rfl | ⟨c, hc, rfl⟩
  · cases hpiece with
    | component hrun => exact fun hmem => hrun '/' hmem rfl
  · cases hpiece with
    | literal => simpa using hc.symm

end Token

namespace Pattern

theorem not_mem_of_denotes {pattern : Pattern} (h : ∀ token ∈ pattern, token.IsInside) {text : Text}
    (hdenotes : pattern.Denotes text) : '/' ∉ text := by
  induction hdenotes with
  | nil => simp
  | cons first _ ih =>
    obtain ⟨htoken, hrest⟩ := List.forall_mem_cons.1 h
    rw [List.mem_append, not_or]
    exact ⟨htoken.not_mem first, ih hrest⟩

/-! ## Reading by component -/

theorem ofStars_isInside {stars : Nat} (h : stars < 2) :
    ∀ token ∈ ofStars stars, token.IsInside := by
  match stars, h with
  | 0, _ => simp [ofStars]
  | 1, _ => simp [ofStars, Token.IsInside]

theorem ofGlyphs_isInside (fresh : Bool) {stars : Nat} {glyphs : List Text.Glyph}
    (hstars : SingleStars (List.replicate stars (.plain '*') ++ glyphs))
    (hslash : ∀ glyph ∈ glyphs, glyph.char ≠ '/') :
    ∀ token ∈ ofGlyphs fresh stars glyphs, token.IsInside := by
  induction glyphs generalizing fresh stars with
  | nil => exact ofStars_isInside hstars.left.lt_two
  | cons glyph rest ih =>
    obtain ⟨hglyph, hrest⟩ := List.forall_mem_cons.1 hslash
    have hopen := ofStars_isInside hstars.left.lt_two
    have hmore : ∀ token ∈ ofGlyphs false 0 rest, token.IsInside :=
      ih false hstars.right.tail hrest
    have hliteral : ∀ token ∈ ofStars stars ++ .literal glyph.char :: ofGlyphs false 0 rest,
        token.IsInside :=
      List.forall_mem_append.2 ⟨hopen, List.forall_mem_cons.2 ⟨.inr ⟨_, hglyph, rfl⟩, hmore⟩⟩
    cases glyph with
    | escaped c => exact hliteral
    | plain c =>
      rcases eq_or_ne c '*' with rfl | hstar
      · -- The star joins the run before it.
        rw [List.append_cons, ← List.replicate_succ'] at hstars
        exact ih fresh hstars hrest
      · rwa [ofGlyphs_plain _ _ hstar hglyph]

theorem tokens_isInside {source : Text} (hstars : SingleStars (Text.glyphs source))
    (hslash : '/' ∉ source) : ∀ token ∈ tokens true source, token.IsInside := by
  have hchars : ∀ glyph ∈ Text.glyphs source, glyph.char ≠ '/' := by
    rintro glyph hglyph hchar
    exact hslash (hchar ▸ Text.char_mem_of_mem_glyphs hglyph)
  exact ofGlyphs_isInside true hstars hchars

/-- A `/` ends what is read before it. -/
theorem ofGlyphs_append_slash (fresh : Bool) {stars : Nat} {glyphs : List Text.Glyph}
    (hstars : SingleStars (List.replicate stars (.plain '*') ++ glyphs)) (more : List Text.Glyph) :
    ofGlyphs fresh stars (glyphs ++ .plain '/' :: more) =
      ofGlyphs fresh stars glyphs ++ .literal '/' :: ofGlyphs true 0 more := by
  induction glyphs generalizing fresh stars with
  | nil =>
    have hnot : (fresh && decide (2 ≤ stars)) = false := by
      rw [decide_eq_false (Nat.not_le.2 hstars.left.lt_two), Bool.and_false]
    rw [List.nil_append, ofGlyphs_slash, hnot]
    rfl
  | cons glyph rest ih =>
    have hmore : ∀ fresh, ofGlyphs fresh 0 (rest ++ .plain '/' :: more) =
        ofGlyphs fresh 0 rest ++ .literal '/' :: ofGlyphs true 0 more :=
      fun fresh => ih fresh hstars.right.tail
    rw [List.cons_append]
    cases glyph with
    | escaped c => rw [ofGlyphs_escaped, ofGlyphs_escaped, hmore]; simp
    | plain c =>
      rcases eq_or_ne c '*' with rfl | hstar
      · rw [List.append_cons, ← List.replicate_succ'] at hstars
        exact ih fresh hstars
      rcases eq_or_ne c '/' with rfl | hslash
      · rw [ofGlyphs_slash, ofGlyphs_slash, hmore]
        split <;> simp
      · rw [ofGlyphs_plain _ _ hstar hslash, ofGlyphs_plain _ _ hstar hslash, hmore]
        simp

theorem tokens_append_slash {piece : Text} (hstars : SingleStars (Text.glyphs piece))
    (hend : Text.endsInEscape piece = false) (rest : Text) :
    tokens true (piece ++ '/' :: rest) = tokens true piece ++ .literal '/' :: tokens true rest := by
  rw [tokens, Text.glyphs_append_cons hend (by decide : '/' ≠ '\\') rest]
  exact ofGlyphs_append_slash true hstars _

/-- Joined pieces are read piece by piece. -/
theorem tokens_intercalate {pieces : List Text}
    (hstars : SingleStars (Text.glyphs (['/'].intercalate pieces)))
    (hslash : .escaped '/' ∉ Text.glyphs (['/'].intercalate pieces)) :
    tokens true (['/'].intercalate pieces) = [.literal '/'].intercalate (pieces.map (tokens true)) ∧
      ∀ piece ∈ pieces, SingleStars (Text.glyphs piece) := by
  induction pieces with
  | nil => simp
  | cons piece rest ih =>
    cases rest with
    | nil => simpa using hstars
    | cons next rest =>
      rw [List.intercalate_cons_cons, List.append_assoc, List.singleton_append] at hstars hslash ⊢
      have hend : Text.endsInEscape piece = false := by
        rw [← Bool.not_eq_true]
        exact fun h => hslash (Text.escaped_mem_glyphs h '/' _)
      have hglyphs := Text.glyphs_append_cons hend (by decide : '/' ≠ '\\')
        (['/'].intercalate (next :: rest))
      rw [hglyphs] at hstars hslash
      have hescaped := fun h => hslash (List.mem_append_right _ (List.mem_cons_of_mem _ h))
      obtain ⟨hread, hsingle⟩ := ih hstars.right.tail hescaped
      refine ⟨?_, List.forall_mem_cons.2 ⟨hstars.left, hsingle⟩⟩
      rw [tokens_append_slash hstars.left hend, List.map_cons, List.map_cons,
        List.intercalate_cons_cons, ← List.map_cons, ← hread]
      simp

/-! ## Finding by component -/

theorem denotes_intercalate_iff {patterns : List Pattern} {text : Text} :
    Denotes ([.literal '/'].intercalate patterns) text ↔
      ∃ pieces, text = ['/'].intercalate pieces ∧ List.Forall₂ Denotes patterns pieces := by
  induction patterns generalizing text with
  | nil => simp
  | cons pattern rest ih =>
    cases rest with
    | nil => simp [List.forall₂_cons_left_iff]
    | cons next rest =>
      rw [List.intercalate_cons_cons, List.append_assoc, List.singleton_append, denotes_append_iff]
      simp only [denotes_literal_cons_iff, ih, List.forall₂_cons_left_iff]
      constructor
      · rintro ⟨first, _, rfl, hfirst, _, rfl, _, rfl, second, more, hsecond, hmore, rfl⟩
        exact ⟨first :: second :: more, by simp [List.intercalate_cons_cons], first, _, hfirst,
          ⟨second, more, hsecond, hmore, rfl⟩, rfl⟩
      · rintro ⟨_, rfl, first, _, hfirst, ⟨second, more, hsecond, hmore, rfl⟩, rfl⟩
        exact ⟨first, '/' :: ['/'].intercalate (second :: more),
          by simp [List.intercalate_cons_cons], hfirst, _, rfl, _, rfl, second, more, hsecond,
          hmore, rfl⟩

theorem not_mem_of_forall₂_denotes {patterns : List Pattern} {pieces : List Text}
    (hinside : ∀ pattern ∈ patterns, ∀ token ∈ pattern, token.IsInside)
    (h : List.Forall₂ Denotes patterns pieces) : ∀ piece ∈ pieces, '/' ∉ piece := by
  induction h with
  | nil => simp
  | cons hfirst _ ih =>
    obtain ⟨hpattern, hrest⟩ := List.forall_mem_cons.1 hinside
    exact List.forall_mem_cons.2 ⟨not_mem_of_denotes hpattern hfirst, ih hrest⟩

/-- If no pattern takes a `/`, the pieces of a text are those between its slashes. -/
theorem denotes_intercalate_iff_splitOn {patterns : List Pattern} (hne : patterns ≠ [])
    (hinside : ∀ pattern ∈ patterns, ∀ token ∈ pattern, token.IsInside) {text : Text} :
    Denotes ([.literal '/'].intercalate patterns) text ↔
      List.Forall₂ Denotes patterns (text.splitOn '/') := by
  rw [denotes_intercalate_iff]
  constructor
  · rintro ⟨pieces, rfl, hpieces⟩
    have hne' : pieces ≠ [] := by
      rintro rfl
      exact hne (List.forall₂_nil_right_iff.1 hpieces)
    rwa [List.splitOn_intercalate '/' (not_mem_of_forall₂_denotes hinside hpieces) hne']
  · intro h
    exact ⟨text.splitOn '/', (List.intercalate_splitOn '/').symm, h⟩

theorem denotes_tokens_iff_splitOn {source text : Text}
    (hstars : SingleStars (Text.glyphs source)) (hslash : .escaped '/' ∉ Text.glyphs source) :
    (tokens true source).Denotes text ↔
      List.Forall₂ (fun piece part => (tokens true piece).Denotes part) (source.splitOn '/')
        (text.splitOn '/') := by
  have hsource : ['/'].intercalate (source.splitOn '/') = source := List.intercalate_splitOn '/'
  have hread := @tokens_intercalate (source.splitOn '/')
  rw [hsource] at hread
  obtain ⟨htokens, hsingle⟩ := hread hstars hslash
  have hne : (source.splitOn '/').map (tokens true) ≠ [] := by simp [List.splitOn_ne_nil]
  have hinside : ∀ pattern ∈ (source.splitOn '/').map (tokens true), ∀ token ∈ pattern,
      token.IsInside := by
    intro pattern hpattern
    obtain ⟨piece, hpiece, rfl⟩ := List.mem_map.1 hpattern
    exact tokens_isInside (hsingle piece hpiece) (not_mem_of_mem_splitOn hpiece)
  rw [htokens, denotes_intercalate_iff_splitOn hne hinside, List.forall₂_map_left_iff]

/-- A pattern without two stars in a row and without a `/` that is taken literally is found as a
text just if there are as many pieces between the slashes of both, and each piece of the pattern is
found as the piece of the text in its place. So no star takes a `/`: there are as many in the text
as in the pattern. -/
theorem matchesWhole_iff_splitOn {source : Text} (hstars : SingleStars (Text.glyphs source))
    (hslash : .escaped '/' ∉ Text.glyphs source)
    (hfits : (Rule.patternOf source).isSome = true)
    (hpieces : ∀ piece ∈ source.splitOn '/', (Rule.patternOf piece).isSome = true) (text : Text) :
    (matchesWhole source text = true ↔
        List.Forall₂ (fun piece part => matchesWhole piece part = true) (source.splitOn '/')
          (text.splitOn '/')) ∧
      (matchesWhole source text = true → text.count '/' = source.count '/') := by
  have hiff : matchesWhole source text = true ↔
      List.Forall₂ (fun piece part => matchesWhole piece part = true) (source.splitOn '/')
        (text.splitOn '/') := by
    simp only [matchesWhole_iff_denotes, hfits, true_and, List.forall₂_and_left]
    rw [denotes_tokens_iff_splitOn hstars hslash, and_iff_right hpieces]
  refine ⟨hiff, fun h => ?_⟩
  have hlength := (hiff.1 h).length_eq
  rw [length_splitOn, length_splitOn] at hlength
  omega

/-- The second star of `a\**/*.d` takes nothing, and neither star takes a `/`. -/
theorem matchesWhole_iff_splitOn_extension :
    SingleStars (Text.glyphs "a\\**/*.d".toList) ∧
      .escaped '/' ∉ Text.glyphs "a\\**/*.d".toList ∧
      (Rule.patternOf "a\\**/*.d".toList).isSome = true ∧
      (∀ piece ∈ "a\\**/*.d".toList.splitOn '/', (Rule.patternOf piece).isSome = true) ∧
      matchesWhole "a\\**/*.d".toList "a*/x.d".toList = true ∧
      matchesWhole "a\\**/*.d".toList "a*/k/x.d".toList = false := by
  have hstars : SingleStars (Text.glyphs "a\\**/*.d".toList) := by decide +kernel
  have hslash : .escaped '/' ∉ Text.glyphs "a\\**/*.d".toList := by decide
  have hfits : (Rule.patternOf "a\\**/*.d".toList).isSome = true := by decide
  have hpieces : ∀ piece ∈ "a\\**/*.d".toList.splitOn '/',
      (Rule.patternOf piece).isSome = true := by
    decide +kernel
  have hfirst : matchesWhole "a\\**".toList "a*".toList = true := by
    rw [matchesWhole_eq_any]
    decide
  have hsecond : matchesWhole "*.d".toList "x.d".toList = true := by
    rw [matchesWhole_eq_any]
    decide
  refine ⟨hstars, hslash, hfits, hpieces, ?_, ?_⟩
  · obtain ⟨hiff, -⟩ := matchesWhole_iff_splitOn hstars hslash hfits hpieces "a*/x.d".toList
    exact hiff.2 (.cons hfirst (.cons hsecond .nil))
  · obtain ⟨-, hcount⟩ := matchesWhole_iff_splitOn hstars hslash hfits hpieces "a*/k/x.d".toList
    rw [← Bool.not_eq_true]
    exact fun h => absurd (hcount h) (by decide)

end Pattern

end PathIgnore
