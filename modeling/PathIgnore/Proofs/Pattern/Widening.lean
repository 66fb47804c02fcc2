import PathIgnore.Proofs.Pattern.Spelling

/-!
# Widening a star

A `*` stands for any run of characters inside one component, newlines included; a `**` stands for
any run on one line. Main statement: a text as which a pattern is found is still found when a star
that stands by itself is made two, unless the star takes a newline (`matchesWhole_widenStar`).
-/

namespace PathIgnore.Pattern

variable {before after text : Text}

/-- A star that stands by itself takes a run without `/`, between what stands before it and what
stands after it. -/
theorem denotes_tokens_star_iff (hbefore : IsClosed before) (hafter : after.head? ≠ some '*') :
    (tokens true (before ++ '*' :: after)).Denotes text ↔
      ∃ start run rest, text = start ++ (run ++ rest) ∧ (tokens true before).Denotes start ∧
        (∀ c ∈ run, c ≠ '/') ∧ (tokens false after).Denotes rest := by
  obtain ⟨fresh, hread⟩ := tokens_append hbefore true
  rw [hread, tokens_star fresh hafter, denotes_append_iff]
  constructor
  · rintro ⟨start, _, rfl, hstart, hmore⟩
    obtain ⟨run, rest, rfl, hrun, hrest⟩ := denotes_component_cons_iff.1 hmore
    exact ⟨start, run, rest, rfl, hstart, hrun, hrest⟩
  · rintro ⟨start, run, rest, rfl, hstart, hrun, hrest⟩
    exact ⟨start, run ++ rest, rfl, hstart, denotes_component_cons_iff.2 ⟨run, rest, rfl, hrun, hrest⟩⟩

/-- Two stars take any run on one line, whether they stand for directories with the `/` that follows
them or for themselves. -/
theorem denotes_tokens_stars (hbefore : IsClosed before) (hafter : after.head? ≠ some '*')
    {start run rest : Text} (hstart : (tokens true before).Denotes start)
    (hrun : ∀ c ∈ run, c ≠ '\n') (hrest : (tokens false after).Denotes rest) :
    (tokens true (before ++ '*' :: '*' :: after)).Denotes (start ++ (run ++ rest)) := by
  obtain ⟨fresh, hread⟩ := tokens_append hbefore true
  rw [hread]
  refine denotes_append hstart ?_
  have hstars : '*' :: '*' :: after = List.replicate 2 '*' ++ after := rfl
  rw [hstars]
  rcases Classical.em (fresh = true ∧ after.head? = some '/') with ⟨rfl, hslash⟩ | hopen
  · obtain ⟨source, rfl⟩ : ∃ source, after = '/' :: source := List.head?_eq_some_iff.1 hslash
    rw [tokens_slash, denotes_literal_cons_iff] at hrest
    obtain ⟨text, rfl, hmore⟩ := hrest
    rw [tokens_directories (Nat.le_refl 2), denotes_directories_cons_iff]
    exact .inr ⟨run, text, rfl, hrun, hmore⟩
  · rw [tokens_stars (Nat.le_refl 2) hafter fun hfresh hslash => hopen ⟨hfresh, hslash⟩,
      denotes_anything_cons_iff]
    exact ⟨run, rest, rfl, hrun, hrest⟩

/-- When a star that stands by itself is made two, the pattern is still found as every text as which
it was found, unless the star takes a newline, however the text is divided. -/
theorem matchesWhole_widenStar (hbefore : IsClosed before) (hafter : after.head? ≠ some '*')
    (hfits : (Rule.patternOf (before ++ '*' :: '*' :: after)).isSome = true)
    (h : matchesWhole (before ++ '*' :: after) text = true) :
    matchesWhole (before ++ '*' :: '*' :: after) text = true ∨
      '\n' ∈ text ∧ ∀ start run rest, text = start ++ (run ++ rest) → Spells true before start →
        '/' ∉ run → Spells false after rest → '\n' ∈ run := by
  by_cases hwide : matchesWhole (before ++ '*' :: '*' :: after) text = true
  · exact .inl hwide
  have hline : ∀ start run rest, text = start ++ (run ++ rest) → Spells true before start →
      '/' ∉ run → Spells false after rest → '\n' ∈ run := by
    rintro start run rest rfl hstart - hrest
    by_contra hnone
    have hone : ∀ c ∈ run, c ≠ '\n' := fun c hc heq => hnone (heq ▸ hc)
    exact hwide (matchesWhole_iff_denotes.2 ⟨hfits, denotes_tokens_stars hbefore hafter
      (denotes_tokens_of_spells hstart) hone (denotes_tokens_of_spells hrest)⟩)
  obtain ⟨-, hdenotes⟩ := matchesWhole_iff_denotes.1 h
  obtain ⟨start, run, rest, htext, hstart, hrun, hrest⟩ :=
    (denotes_tokens_star_iff hbefore hafter).1 hdenotes
  have htaken : '\n' ∈ run := hline start run rest htext (spells_of_denotes_tokens hstart)
    (fun hslash => hrun '/' hslash rfl) (spells_of_denotes_tokens hrest)
  exact .inr ⟨by simp [htext, htaken], hline⟩

/-- The first star of `a/*/\*` stands by itself, and the other one is taken literally. -/
theorem matchesWhole_widenStar_directory :
    IsClosed "a/".toList ∧ "/\\*".toList.head? ≠ some '*' ∧
      (Rule.patternOf "a/**/\\*".toList).isSome = true ∧
      matchesWhole "a/*/\\*".toList "a/x/*".toList = true ∧
      matchesWhole "a/**/\\*".toList "a/x/*".toList = true := by
  have hbefore : IsClosed "a/".toList := by decide
  have hafter : "/\\*".toList.head? ≠ some '*' := by decide
  have hfits : (Rule.patternOf "a/**/\\*".toList).isSome = true := by decide
  have hfound : matchesWhole "a/*/\\*".toList "a/x/*".toList = true := by
    rw [matchesWhole_eq_any]
    decide
  refine ⟨hbefore, hafter, hfits, hfound, ?_⟩
  rcases matchesWhole_widenStar hbefore hafter hfits hfound with hwide | ⟨hline, -⟩
  · exact hwide
  · revert hline
    decide

/-- A newline that the star took is lost when the star is made two. -/
theorem not_matchesWhole_widenStar_newline :
    IsClosed [] ∧ (Rule.patternOf ['*', '*']).isSome = true ∧
      matchesWhole ['*'] ['\n'] = true ∧ matchesWhole ['*', '*'] ['\n'] = false := by
  rw [matchesWhole_eq_any, matchesWhole_eq_any]
  decide

end PathIgnore.Pattern
