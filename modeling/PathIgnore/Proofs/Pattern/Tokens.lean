import PathIgnore.Pattern.Language
import PathIgnore.Proofs.Text.Escape

/-!
# The tokens of a written pattern

Reading a pattern takes one pass over the glyphs of its text, with a count of the stars that stand
open. This module says the same on the text itself: one equation for each way in which a written
pattern may start, how a pattern is read in two parts (`tokens_append`), and, for each token, what a
pattern denotes that starts with it.
-/

namespace PathIgnore.Pattern

/-- The tokens of a written pattern. `fresh` says that it stands at the start of a component. -/
def tokens (fresh : Bool) (source : Text) : Pattern :=
  ofGlyphs fresh 0 (Text.glyphs source)

theorem ofText_eq_tokens (source : Text) : ofText source = tokens true source := rfl

/-! ## Reading -/

@[simp] theorem tokens_nil (fresh : Bool) : tokens fresh [] = [] := rfl

@[simp] theorem tokens_dangling (fresh : Bool) : tokens fresh ['\\'] = [.literal '\\'] := rfl

@[simp] theorem tokens_escape (fresh : Bool) (c : Char) (source : Text) :
    tokens fresh ('\\' :: c :: source) = .literal c :: tokens false source := rfl

@[simp] theorem tokens_slash (fresh : Bool) (source : Text) :
    tokens fresh ('/' :: source) = .literal '/' :: tokens true source := by
  unfold tokens
  rw [Text.glyphs_cons_of_ne (by decide), ofGlyphs_slash]
  cases fresh <;> rfl

theorem tokens_literal (fresh : Bool) {c : Char} (hescape : c ≠ '\\') (hstar : c ≠ '*')
    (hslash : c ≠ '/') (source : Text) :
    tokens fresh (c :: source) = .literal c :: tokens false source := by
  unfold tokens
  rw [Text.glyphs_cons_of_ne hescape, ofGlyphs_plain _ _ hstar hslash]
  rfl

theorem ofGlyphs_replicate_star (fresh : Bool) (open_ n : Nat) (source : Text) :
    ofGlyphs fresh open_ (Text.glyphs (List.replicate n '*' ++ source)) =
      ofGlyphs fresh (open_ + n) (Text.glyphs source) := by
  induction n generalizing open_ with
  | zero => rfl
  | succ n ih =>
    rw [List.replicate_succ, List.cons_append, Text.glyphs_cons_of_ne (by decide), ofGlyphs_star,
      ih, Nat.add_right_comm, Nat.add_assoc]

/-- A run of stars that no star follows and that is not the start of a `**/` stands for itself. -/
theorem ofGlyphs_of_run_ends {fresh : Bool} {n : Nat} {source : Text}
    (hend : source.head? ≠ some '*')
    (hbounded : fresh = true → 2 ≤ n → source.head? ≠ some '/') :
    ofGlyphs fresh n (Text.glyphs source) = ofStars n ++ tokens false source := by
  cases source with
  | nil => simp [ofGlyphs]
  | cons c rest =>
    have hstar : c ≠ '*' := by simpa using hend
    rcases eq_or_ne c '\\' with rfl | hescape
    · cases rest with
      | nil => rw [Text.glyphs_dangling, ofGlyphs_plain _ _ hstar (by decide)]; rfl
      | cons d rest => rw [Text.glyphs_escape, ofGlyphs_escaped]; rfl
    rw [Text.glyphs_cons_of_ne hescape]
    rcases eq_or_ne c '/' with rfl | hslash
    · have hnot : (fresh && decide (2 ≤ n)) = false := by
        cases fresh with
        | false => rfl
        | true =>
          have hn : ¬2 ≤ n := fun hn => hbounded rfl hn rfl
          simpa using hn
      rw [ofGlyphs_slash, hnot, tokens_slash]
      rfl
    · rw [ofGlyphs_plain _ _ hstar hslash, tokens_literal _ hescape hstar hslash]
      rfl

theorem tokens_star (fresh : Bool) {source : Text} (hend : source.head? ≠ some '*') :
    tokens fresh ('*' :: source) = .component :: tokens false source := by
  have hrun := ofGlyphs_replicate_star fresh 0 1 source
  have hends := @ofGlyphs_of_run_ends fresh 1 source hend fun _ hn => absurd hn (by decide)
  exact hrun.trans hends

theorem tokens_directories {n : Nat} (hn : 2 ≤ n) (source : Text) :
    tokens true (List.replicate n '*' ++ '/' :: source) = .directories :: tokens true source := by
  unfold tokens
  rw [ofGlyphs_replicate_star, Nat.zero_add, Text.glyphs_cons_of_ne (by decide), ofGlyphs_slash,
    decide_eq_true hn]
  rfl

/-- A written pattern with a `**/` before it. -/
def inAnyDirectory (source : Text) : Text :=
  '*' :: '*' :: '/' :: source

theorem tokens_inAnyDirectory (source : Text) :
    tokens true (inAnyDirectory source) = .directories :: tokens true source :=
  tokens_directories (Nat.le_refl 2) source

theorem tokens_stars {fresh : Bool} {n : Nat} (hn : 2 ≤ n) {source : Text}
    (hend : source.head? ≠ some '*') (hopen : fresh = true → source.head? ≠ some '/') :
    tokens fresh (List.replicate n '*' ++ source) = .anything :: tokens false source := by
  have hstars : ofStars n = [.anything] := by
    obtain ⟨m, rfl⟩ : ∃ m, n = m + 2 := ⟨n - 2, by omega⟩
    rfl
  unfold tokens
  rw [ofGlyphs_replicate_star, Nat.zero_add,
    ofGlyphs_of_run_ends hend fun hfresh _ => hopen hfresh, hstars]
  rfl

/-- A quoted text is read character by character. -/
theorem tokens_quoted_append (fresh : Bool) (text source : Text) :
    ∃ after, tokens fresh (Text.escapeExcept (· == '/') text ++ source) =
      text.map .literal ++ tokens after source := by
  induction text generalizing fresh with
  | nil => exact ⟨fresh, rfl⟩
  | cons c text ih =>
    by_cases hc : c = '/'
    · obtain ⟨after, hafter⟩ := ih true
      exact ⟨after, by simp [Text.escapeExcept, hc, hafter]⟩
    · obtain ⟨after, hafter⟩ := ih false
      exact ⟨after, by simp [Text.escapeExcept, hc, hafter]⟩

theorem tokens_quoted (fresh : Bool) (text : Text) :
    tokens fresh (Text.escapeExcept (· == '/') text) = text.map .literal := by
  obtain ⟨after, hafter⟩ := tokens_quoted_append fresh text []
  simpa using hafter

theorem tokens_quoted_slash (fresh : Bool) (text source : Text) :
    tokens fresh (Text.escapeExcept (· == '/') text ++ '/' :: source) =
      text.map .literal ++ .literal '/' :: tokens true source := by
  obtain ⟨after, hafter⟩ := tokens_quoted_append fresh text ('/' :: source)
  rw [hafter, tokens_slash]

/-- A text starts with a run of stars that no star follows, perhaps an empty one. -/
theorem exists_replicate_star (source : Text) :
    ∃ n rest, source = List.replicate n '*' ++ rest ∧ rest.head? ≠ some '*' := by
  induction source with
  | nil => exact ⟨0, [], rfl, by simp⟩
  | cons c source ih =>
    rcases eq_or_ne c '*' with rfl | hc
    · obtain ⟨n, rest, rfl, hrest⟩ := ih
      exact ⟨n + 1, rest, by rw [List.replicate_succ, List.cons_append], hrest⟩
    · exact ⟨0, c :: source, rfl, by simpa using hc⟩

/-! ## Reading in two parts -/

/-- Whether what follows the text is read by itself: no escape is open at its end, and no run of
stars. -/
def IsClosed (source : Text) : Prop :=
  Text.endsInEscape source = false ∧
    (source.getLast? = some '*' → Text.endsInEscape source.dropLast = true)

instance (source : Text) : Decidable (IsClosed source) :=
  inferInstanceAs (Decidable (_ ∧ _))

theorem IsClosed.getLast?_glyphs_ne {source : Text} (h : IsClosed source) :
    (Text.glyphs source).getLast? ≠ some (.plain '*') := by
  obtain ⟨-, hstar⟩ := h
  cases source using List.reverseRecOn with
  | nil => simp
  | append_singleton front c =>
    rw [Text.getLast?_glyphs_concat]
    by_cases hc : c = '*'
    · have hescape : Text.endsInEscape front = true := by simpa [hc] using hstar
      simp [hescape]
    · cases Text.endsInEscape front <;> simp [hc]

/-- Glyphs that leave no stars open are read by themselves. What follows them learns only whether it
stands at the start of a component. -/
theorem exists_ofGlyphs_append {glyphs : List Text.Glyph}
    (hlast : glyphs.getLast? ≠ some (.plain '*')) (fresh : Bool) {stars : Nat}
    (hopen : glyphs = [] → stars = 0) :
    ∃ after, ∀ more, ofGlyphs fresh stars (glyphs ++ more) =
      ofGlyphs fresh stars glyphs ++ ofGlyphs after 0 more := by
  induction glyphs generalizing fresh stars with
  | nil =>
    obtain rfl := hopen rfl
    exact ⟨fresh, fun _ => rfl⟩
  | cons glyph rest ih =>
    have hrest : rest.getLast? ≠ some (.plain '*') := by
      intro hstar
      exact hlast (by simp [List.getLast?_cons, hstar])
    have hzero : rest = [] → 0 = 0 := fun _ => rfl
    cases glyph with
    | escaped c =>
      obtain ⟨after, hafter⟩ := ih hrest false hzero
      exact ⟨after, fun more => by simp [hafter]⟩
    | plain c =>
      rcases eq_or_ne c '*' with rfl | hstar
      · -- A star is not the last glyph, so the run that it belongs to ends later on.
        have hmore : rest = [] → stars + 1 = 0 := by
          rintro rfl
          exact absurd rfl hlast
        obtain ⟨after, hafter⟩ := ih hrest fresh hmore
        exact ⟨after, fun more => by simp [hafter]⟩
      rcases eq_or_ne c '/' with rfl | hslash
      · obtain ⟨after, hafter⟩ := ih hrest true hzero
        refine ⟨after, fun more => ?_⟩
        rw [List.cons_append, ofGlyphs_slash, ofGlyphs_slash, hafter]
        split <;> simp
      · obtain ⟨after, hafter⟩ := ih hrest false hzero
        refine ⟨after, fun more => ?_⟩
        rw [List.cons_append, ofGlyphs_plain _ _ hstar hslash, ofGlyphs_plain _ _ hstar hslash,
          hafter]
        simp

theorem tokens_append {source : Text} (h : IsClosed source) (fresh : Bool) :
    ∃ after, ∀ more, tokens fresh (source ++ more) = tokens fresh source ++ tokens after more := by
  have hzero : Text.glyphs source = [] → 0 = 0 := fun _ => rfl
  obtain ⟨after, hafter⟩ := exists_ofGlyphs_append h.getLast?_glyphs_ne fresh hzero
  refine ⟨after, fun more => ?_⟩
  rw [tokens, Text.glyphs_append h.1, hafter]
  rfl

/-! ## What is denoted -/

@[simp] theorem denotes_nil_iff {text : Text} : Denotes [] text ↔ text = [] := by
  constructor
  · rintro ⟨⟩
    rfl
  · rintro rfl
    exact .nil

theorem denotes_cons_iff {token : Token} {pattern : Pattern} {text : Text} :
    Denotes (token :: pattern) text ↔
      ∃ piece rest, text = piece ++ rest ∧ token.Denotes piece ∧ Denotes pattern rest := by
  constructor
  · intro h
    cases h with
    | @cons _ _ piece rest first more => exact ⟨piece, rest, rfl, first, more⟩
  · rintro ⟨piece, rest, rfl, first, more⟩
    exact .cons first more

@[simp] theorem denotes_literal_cons_iff {c : Char} {pattern : Pattern} {text : Text} :
    Denotes (.literal c :: pattern) text ↔ ∃ rest, text = c :: rest ∧ Denotes pattern rest := by
  rw [denotes_cons_iff]
  constructor
  · rintro ⟨_, rest, rfl, ⟨⟩, more⟩
    exact ⟨rest, rfl, more⟩
  · rintro ⟨rest, rfl, more⟩
    exact ⟨[c], rest, rfl, .literal c, more⟩

@[simp] theorem denotes_component_cons_iff {pattern : Pattern} {text : Text} :
    Denotes (.component :: pattern) text ↔
      ∃ run rest, text = run ++ rest ∧ (∀ c ∈ run, c ≠ '/') ∧ Denotes pattern rest := by
  rw [denotes_cons_iff]
  constructor
  · rintro ⟨run, rest, rfl, hpiece, more⟩
    cases hpiece with
    | component hrun => exact ⟨run, rest, rfl, hrun, more⟩
  · rintro ⟨run, rest, rfl, hrun, more⟩
    exact ⟨run, rest, rfl, .component hrun, more⟩

@[simp] theorem denotes_anything_cons_iff {pattern : Pattern} {text : Text} :
    Denotes (.anything :: pattern) text ↔
      ∃ run rest, text = run ++ rest ∧ (∀ c ∈ run, c ≠ '\n') ∧ Denotes pattern rest := by
  rw [denotes_cons_iff]
  constructor
  · rintro ⟨run, rest, rfl, hpiece, more⟩
    cases hpiece with
    | anything hrun => exact ⟨run, rest, rfl, hrun, more⟩
  · rintro ⟨run, rest, rfl, hrun, more⟩
    exact ⟨run, rest, rfl, .anything hrun, more⟩

@[simp] theorem denotes_directories_cons_iff {pattern : Pattern} {text : Text} :
    Denotes (.directories :: pattern) text ↔
      Denotes pattern text ∨
        ∃ run rest, text = run ++ '/' :: rest ∧ (∀ c ∈ run, c ≠ '\n') ∧
          Denotes pattern rest := by
  rw [denotes_cons_iff]
  constructor
  · rintro ⟨piece, rest, rfl, hpiece, more⟩
    cases hpiece with
    | noDirectory => exact .inl more
    | @directories run hrun => exact .inr ⟨run, rest, by simp, hrun, more⟩
  · rintro (more | ⟨run, rest, rfl, hrun, more⟩)
    · exact ⟨[], text, rfl, .noDirectory, more⟩
    · exact ⟨run ++ ['/'], rest, by simp, .directories hrun, more⟩

/-- On one line, a `**/` lets what follows it start after any `/`. -/
theorem denotes_directories_cons_iff_of_line {pattern : Pattern} {text : Text}
    (hline : '\n' ∉ text) :
    Denotes (.directories :: pattern) text ↔
      Denotes pattern text ∨
        ∃ directory rest, text = directory ++ '/' :: rest ∧ Denotes pattern rest := by
  rw [denotes_directories_cons_iff]
  refine or_congr_right ⟨?_, ?_⟩
  · rintro ⟨directory, rest, rfl, -, more⟩
    exact ⟨directory, rest, rfl, more⟩
  · rintro ⟨directory, rest, rfl, more⟩
    refine ⟨directory, rest, rfl, ?_, more⟩
    rintro c hc rfl
    exact hline (List.mem_append_left _ hc)

theorem denotes_append_iff {first second : Pattern} {text : Text} :
    Denotes (first ++ second) text ↔
      ∃ start rest, text = start ++ rest ∧ Denotes first start ∧ Denotes second rest := by
  constructor
  · intro h
    induction first generalizing text with
    | nil => exact ⟨[], text, rfl, .nil, h⟩
    | cons token first ih =>
      obtain ⟨piece, _, rfl, hpiece, hmore⟩ := denotes_cons_iff.1 h
      obtain ⟨start, rest, rfl, hstart, hrest⟩ := ih hmore
      exact ⟨piece ++ start, rest, by simp, .cons hpiece hstart, hrest⟩
  · rintro ⟨start, rest, rfl, hstart, hrest⟩
    exact denotes_append hstart hrest

theorem denotes_map_literal_append_iff {text : Text} {pattern : Pattern} {whole : Text} :
    Denotes (text.map .literal ++ pattern) whole ↔
      ∃ rest, whole = text ++ rest ∧ Denotes pattern rest := by
  induction text generalizing whole with
  | nil => simp
  | cons c text ih =>
    rw [List.map_cons, List.cons_append, denotes_literal_cons_iff]
    simp only [ih]
    constructor
    · rintro ⟨_, rfl, rest, rfl, hrest⟩
      exact ⟨rest, rfl, hrest⟩
    · rintro ⟨rest, rfl, hrest⟩
      exact ⟨text ++ rest, rfl, rest, rfl, hrest⟩

theorem denotes_map_literal_iff {text part : Text} :
    Denotes (text.map .literal) part ↔ part = text := by
  have happend := @denotes_map_literal_append_iff text [] part
  simpa using happend

end PathIgnore.Pattern
