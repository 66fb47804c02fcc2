import PathIgnore.Proofs.Pattern.Tokens
import PathIgnore.Rule

/-!
# What a written pattern spells

`Spells` says on the text of a pattern, without tokens and without a search, which texts it stands
for. Main statement: the search for a written pattern finds exactly these texts, unless the pattern
is too large to search for.
-/

namespace PathIgnore.Pattern

/-- The written pattern `source` stands for the whole of `text`. The flag says that `source` stands
at the start of a component: at the very start of a pattern, directly after an unescaped `/`, or
directly after a `**/` that stands for directories. -/
inductive Spells : Bool → Text → Text → Prop where
  | nil {fresh : Bool} : Spells fresh [] []
  /-- A backslash takes the next character literally. -/
  | escaped {fresh : Bool} {c : Char} {source text : Text} (more : Spells false source text) :
      Spells fresh ('\\' :: c :: source) (c :: text)
  /-- A backslash at the very end stands for itself. -/
  | dangling {fresh : Bool} : Spells fresh ['\\'] ['\\']
  | slash {fresh : Bool} {source text : Text} (more : Spells true source text) :
      Spells fresh ('/' :: source) ('/' :: text)
  /-- Any other character stands for itself. -/
  | literal {fresh : Bool} {c : Char} {source text : Text} (hescape : c ≠ '\\') (hstar : c ≠ '*')
      (hslash : c ≠ '/') (more : Spells false source text) :
      Spells fresh (c :: source) (c :: text)
  /-- A star by itself stands for any run without `/`. -/
  | star {fresh : Bool} {source run text : Text} (hend : source.head? ≠ some '*')
      (hrun : ∀ c ∈ run, c ≠ '/') (more : Spells false source text) :
      Spells fresh ('*' :: source) (run ++ text)
  /-- Two or more stars and a `/` at the start of a component stand for no directory … -/
  | noDirectory {n : Nat} {source text : Text} (hn : 2 ≤ n) (more : Spells true source text) :
      Spells true (List.replicate n '*' ++ '/' :: source) text
  /-- … or for any run without a newline, and a `/`. -/
  | directories {n : Nat} {source run text : Text} (hn : 2 ≤ n) (hrun : ∀ c ∈ run, c ≠ '\n')
      (more : Spells true source text) :
      Spells true (List.replicate n '*' ++ '/' :: source) (run ++ '/' :: text)
  /-- Any other run of two or more stars stands for any run without a newline. -/
  | stars {fresh : Bool} {n : Nat} {source run text : Text} (hn : 2 ≤ n)
      (hend : source.head? ≠ some '*') (hopen : fresh = true → source.head? ≠ some '/')
      (hrun : ∀ c ∈ run, c ≠ '\n') (more : Spells false source text) :
      Spells fresh (List.replicate n '*' ++ source) (run ++ text)

/-- Whether the pattern that `source` writes is found as the whole of `text`. A pattern that is too
large is found nowhere. -/
def matchesWhole (source text : Text) : Bool :=
  (Rule.patternOf source).any (·.accepts text)

theorem matchesWhole_iff_denotes {source text : Text} :
    matchesWhole source text = true ↔
      (Rule.patternOf source).isSome = true ∧ (tokens true source).Denotes text := by
  unfold matchesWhole Rule.patternOf
  simp only
  split
  · simp [accepts_iff, ofText_eq_tokens]
  · simp

theorem matchesWhole_eq_any (source text : Text) :
    matchesWhole source text = (Rule.patternOf source).any (·.leadsTo List.isEmpty text) := by
  simp only [matchesWhole, accepts_eq_leadsTo]

theorem denotes_tokens_of_spells {fresh : Bool} {source text : Text}
    (h : Spells fresh source text) : (tokens fresh source).Denotes text := by
  induction h with
  | nil => exact .nil
  | escaped _ ih =>
    rw [tokens_escape]
    exact .cons (.literal _) ih
  | dangling =>
    rw [tokens_dangling]
    exact .cons (.literal _) .nil
  | slash _ ih =>
    rw [tokens_slash]
    exact .cons (.literal _) ih
  | literal hescape hstar hslash _ ih =>
    rw [tokens_literal _ hescape hstar hslash]
    exact .cons (.literal _) ih
  | star hend hrun _ ih =>
    rw [tokens_star _ hend]
    exact .cons (.component hrun) ih
  | noDirectory hn _ ih =>
    rw [tokens_directories hn]
    exact denotes_directories_cons_iff.2 (.inl ih)
  | directories hn hrun _ ih =>
    rw [tokens_directories hn]
    exact denotes_directories_cons_iff.2 (.inr ⟨_, _, rfl, hrun, ih⟩)
  | stars hn hend hopen hrun _ ih =>
    rw [tokens_stars hn hend hopen]
    exact .cons (.anything hrun) ih

/-- A run of stars is read as a whole, whatever its length and whatever follows it. -/
theorem spells_of_denotes_replicate {fresh : Bool} {n : Nat} {rest text : Text} (hn : n ≠ 0)
    (hend : rest.head? ≠ some '*')
    (ih : ∀ {fresh : Bool} {source text : Text}, source.length ≤ rest.length →
      (tokens fresh source).Denotes text → Spells fresh source text)
    (h : (tokens fresh (List.replicate n '*' ++ rest)).Denotes text) :
    Spells fresh (List.replicate n '*' ++ rest) text := by
  rcases Nat.lt_or_ge 1 n with hn | hle
  -- Where the run stands and what follows it tell a `**/` from other runs of two or more stars.
  · rcases Classical.em (fresh = true ∧ rest.head? = some '/') with ⟨rfl, hslash⟩ | hopen
    · obtain ⟨source, rfl⟩ : ∃ source, rest = '/' :: source := by
        cases rest with
        | nil => cases hslash
        | cons c source => exact ⟨source, by rw [Option.some.inj hslash]⟩
      rw [tokens_directories hn, denotes_directories_cons_iff] at h
      rcases h with h | ⟨run, text, rfl, hrun, h⟩
      · exact .noDirectory hn (ih (Nat.le_succ _) h)
      · exact .directories hn hrun (ih (Nat.le_succ _) h)
    · have hopen' : fresh = true → rest.head? ≠ some '/' := fun hfresh h => hopen ⟨hfresh, h⟩
      rw [tokens_stars hn hend hopen', denotes_anything_cons_iff] at h
      obtain ⟨run, text, rfl, hrun, h⟩ := h
      exact .stars hn hend hopen' hrun (ih (Nat.le_refl _) h)
  · obtain rfl : n = 1 := by omega
    change (tokens fresh ('*' :: rest)).Denotes text at h
    rw [tokens_star fresh hend, denotes_component_cons_iff] at h
    obtain ⟨run, text, rfl, hrun, h⟩ := h
    exact .star hend hrun (ih (Nat.le_refl _) h)

theorem spells_of_denotes_tokens {fresh : Bool} {source text : Text}
    (h : (tokens fresh source).Denotes text) : Spells fresh source text := by
  -- The rest of a pattern is shorter than the pattern, but need not be its tail.
  induction hlength : source.length using Nat.strongRecOn generalizing fresh source text with
  | ind length ih =>
    have hshorter : ∀ {fresh : Bool} {rest text : Text}, rest.length < source.length →
        (tokens fresh rest).Denotes text → Spells fresh rest text :=
      fun hlt hrest => ih _ (hlength ▸ hlt) hrest rfl
    cases source with
    | nil =>
      rw [tokens_nil, denotes_nil_iff] at h
      rw [h]
      exact .nil
    | cons c source =>
      rcases eq_or_ne c '\\' with rfl | hescape
      · cases source with
        | nil =>
          rw [tokens_dangling, denotes_literal_cons_iff] at h
          obtain ⟨rest, rfl, h⟩ := h
          rw [denotes_nil_iff.1 h]
          exact .dangling
        | cons d source =>
          rw [tokens_escape, denotes_literal_cons_iff] at h
          obtain ⟨rest, rfl, h⟩ := h
          exact .escaped (hshorter (by simp only [List.length_cons]; omega) h)
      rcases eq_or_ne c '/' with rfl | hslash
      · rw [tokens_slash, denotes_literal_cons_iff] at h
        obtain ⟨rest, rfl, h⟩ := h
        exact .slash (hshorter (by simp) h)
      rcases eq_or_ne c '*' with rfl | hstar
      · obtain ⟨n, rest, rfl, hend⟩ := exists_replicate_star source
        have hrun : '*' :: (List.replicate n '*' ++ rest) = List.replicate (n + 1) '*' ++ rest := by
          rw [List.replicate_succ, List.cons_append]
        rw [hrun] at h hshorter ⊢
        refine spells_of_denotes_replicate (Nat.succ_ne_zero n) hend ?_ h
        intro fresh source text hle hsource
        refine hshorter ?_ hsource
        rw [List.length_append, List.length_replicate]
        omega
      · rw [tokens_literal fresh hescape hstar hslash, denotes_literal_cons_iff] at h
        obtain ⟨rest, rfl, h⟩ := h
        exact .literal hescape hstar hslash (hshorter (by simp) h)

theorem accepts_ofText_iff_spells {source text : Text} :
    (ofText source).accepts text = true ↔ Spells true source text := by
  rw [accepts_iff, ofText_eq_tokens]
  exact ⟨spells_of_denotes_tokens, denotes_tokens_of_spells⟩

/-- A written pattern is found as exactly the texts that it spells. -/
theorem matchesWhole_iff_spells (source text : Text) :
    matchesWhole source text = true ↔
      (Rule.patternOf source).isSome = true ∧ Spells true source text := by
  unfold matchesWhole Rule.patternOf
  simp only
  split
  · simp [accepts_ofText_iff_spells]
  · simp

end PathIgnore.Pattern
