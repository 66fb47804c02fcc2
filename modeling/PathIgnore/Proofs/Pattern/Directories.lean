import PathIgnore.Proofs.Pattern.Spelling
import PathIgnore.Proofs.TreePath.NormalForm

/-!
# Two stars among names

Two stars that a `/` divides from quoted names stand for names of directories, as many as there are.
Main statement: which paths in normal form a pattern of this kind is found as, with the stars
between names, before them, or after them (`matchesWhole_directories_iff`).
-/

namespace PathIgnore

namespace TreePath

/-! ## Runs of names -/

variable {path : TreePath} {first last : List Text}

/-- What stands for one run in the text of a path stands for names of the path. -/
theorem IsNormal.exists_run_iff (h : path.IsNormal) (hname : ∃ name ∈ first ++ last, name ≠ [])
    (hslash : ∀ name ∈ first ++ last, '/' ∉ name) :
    (∃ run, (∀ c ∈ run, c ≠ '\n') ∧ path.text = ['/'].intercalate (first ++ run :: last)) ↔
      ∃ between, between ≠ [] ∧ path.components = first ++ between ++ last ∧
        ∀ name ∈ between, '\n' ∉ name := by
  obtain ⟨name, hmem, hne⟩ := hname
  constructor
  · rintro ⟨run, hrun, htext⟩
    have hne_run := List.splitOn_ne_nil '/' run
    have hsplit := intercalate_append_intercalate (a := '/') first hne_run last
    rw [List.intercalate_splitOn] at hsplit
    rw [hsplit, ← List.append_assoc] at htext
    refine ⟨run.splitOn '/', hne_run, ?_, ?_⟩
    · refine (h.text_eq_intercalate_iff ?_ ?_).1 htext
      · refine intercalate_ne_nil_of_mem ?_ hne
        simp only [List.mem_append] at hmem ⊢
        tauto
      · intro name hname
        simp only [List.mem_append] at hname hslash
        rcases hname with (hname | hname) | hname
        · exact hslash name (.inl hname)
        · exact not_mem_of_mem_splitOn hname
        · exact hslash name (.inr hname)
    · intro name hname hline
      have hmem : '\n' ∈ ['/'].intercalate (run.splitOn '/') :=
        (mem_intercalate_iff (by decide)).2 ⟨name, hname, hline⟩
      rw [List.intercalate_splitOn] at hmem
      exact hrun '\n' hmem rfl
  · rintro ⟨between, hbetween, hcomponents, hline⟩
    refine ⟨['/'].intercalate between, ?_, ?_⟩
    · rintro c hc rfl
      obtain ⟨name, hname, hmem⟩ := (mem_intercalate_iff (by decide)).1 hc
      exact hline name hname hmem
    · rw [intercalate_append_intercalate first hbetween, ← List.append_assoc, ← hcomponents,
        h.intercalate_components]

/-- With no run at all, there may be no names in between. -/
theorem IsNormal.text_eq_or_exists_run_iff (h : path.IsNormal)
    (hname : ∃ name ∈ first ++ last, name ≠ []) (hslash : ∀ name ∈ first ++ last, '/' ∉ name) :
    (path.text = ['/'].intercalate (first ++ last) ∨
        ∃ run, (∀ c ∈ run, c ≠ '\n') ∧ path.text = ['/'].intercalate (first ++ run :: last)) ↔
      ∃ between, path.components = first ++ between ++ last ∧ ∀ name ∈ between, '\n' ∉ name := by
  rw [h.exists_run_iff hname hslash]
  obtain ⟨name, hmem, hne⟩ := hname
  rw [h.text_eq_intercalate_iff (intercalate_ne_nil_of_mem hmem hne) hslash]
  constructor
  · rintro (hcomponents | ⟨between, -, hcomponents, hline⟩)
    · exact ⟨[], by simpa using hcomponents, by simp⟩
    · exact ⟨between, hcomponents, hline⟩
  · rintro ⟨between, hcomponents, hline⟩
    rcases eq_or_ne between [] with rfl | hne
    · exact .inl (by simpa using hcomponents)
    · exact .inr ⟨between, hne, hcomponents, hline⟩

end TreePath

namespace Pattern

/-! ## Quoted names -/

/-- Names as a pattern writes them: each character with a backslash before it, and a `/` between the
names. -/
def quotedNames (names : List Text) : Text :=
  ['/'].intercalate (names.map (Text.escapeExcept fun _ => false))

theorem escapeExcept_slash {text : Text} (h : '/' ∉ text) :
    Text.escapeExcept (· == '/') text = Text.escapeExcept (fun _ => false) text := by
  induction text with
  | nil => rfl
  | cons c rest ih =>
    obtain ⟨hc, hrest⟩ := List.ne_and_not_mem_of_not_mem_cons h
    simp [Text.escapeExcept, hc.symm, ih hrest]

theorem quotedNames_eq {names : List Text} (h : ∀ name ∈ names, '/' ∉ name) :
    quotedNames names = Text.escapeExcept (· == '/') (['/'].intercalate names) := by
  unfold quotedNames
  induction names with
  | nil => rfl
  | cons name rest ih =>
    obtain ⟨hname, hrest⟩ := List.forall_mem_cons.1 h
    cases rest with
    | nil => simp [escapeExcept_slash hname]
    | cons next rest =>
      rw [List.intercalate_cons_cons, Text.escapeExcept_append, Text.escapeExcept_append,
        ← ih hrest, escapeExcept_slash hname]
      simp [Text.escapeExcept, List.intercalate_cons_cons]

variable {first last : List Text} {text : Text}

theorem denotes_quotedNames_slash_iff (hslash : ∀ name ∈ first, '/' ∉ name) {source : Text} :
    (tokens true (quotedNames first ++ '/' :: source)).Denotes text ↔
      ∃ rest, text = ['/'].intercalate first ++ '/' :: rest ∧
        (tokens true source).Denotes rest := by
  rw [quotedNames_eq hslash, tokens_quoted_slash, denotes_map_literal_append_iff]
  simp only [denotes_literal_cons_iff]
  constructor
  · rintro ⟨_, rfl, rest, rfl, hrest⟩
    exact ⟨rest, rfl, hrest⟩
  · rintro ⟨rest, rfl, hrest⟩
    exact ⟨_, rfl, rest, rfl, hrest⟩

theorem denotes_directories_quotedNames_iff (hlast : last ≠ [])
    (hslash : ∀ name ∈ last, '/' ∉ name) :
    (tokens true (inAnyDirectory (quotedNames last))).Denotes text ↔
      text = ['/'].intercalate last ∨
        ∃ run, (∀ c ∈ run, c ≠ '\n') ∧ text = ['/'].intercalate (run :: last) := by
  have hrun : ∀ run, ['/'].intercalate (run :: last) = run ++ '/' :: ['/'].intercalate last := by
    intro run
    simp [List.intercalate_cons_of_ne_nil hlast]
  rw [quotedNames_eq hslash, tokens_inAnyDirectory, tokens_quoted, denotes_directories_cons_iff]
  simp only [denotes_map_literal_iff, hrun]
  refine or_congr_right ⟨?_, ?_⟩
  · rintro ⟨run, _, htext, hline, rfl⟩
    exact ⟨run, hline, htext⟩
  · rintro ⟨run, hline, htext⟩
    exact ⟨run, _, htext, hline, rfl⟩

theorem denotes_between_iff (hfirst : first ≠ []) (hlast : last ≠ [])
    (hslash : ∀ name ∈ first ++ last, '/' ∉ name) :
    (tokens true (quotedNames first ++ '/' :: inAnyDirectory (quotedNames last))).Denotes text ↔
      text = ['/'].intercalate (first ++ last) ∨
        ∃ run, (∀ c ∈ run, c ≠ '\n') ∧ text = ['/'].intercalate (first ++ run :: last) := by
  obtain ⟨habove, hbelow⟩ := List.forall_mem_append.1 hslash
  have hjoin : ∀ more, more ≠ [] → ['/'].intercalate (first ++ more) =
      ['/'].intercalate first ++ '/' :: ['/'].intercalate more := fun _ => intercalate_append hfirst
  simp only [denotes_quotedNames_slash_iff habove, denotes_directories_quotedNames_iff hlast hbelow,
    hjoin _ hlast, hjoin _ (List.cons_ne_nil _ last)]
  constructor
  · rintro ⟨_, rfl, rfl | ⟨run, hline, rfl⟩⟩
    · exact .inl rfl
    · exact .inr ⟨run, hline, rfl⟩
  · rintro (rfl | ⟨run, hline, rfl⟩)
    · exact ⟨_, rfl, .inl rfl⟩
    · exact ⟨_, rfl, .inr ⟨run, hline, rfl⟩⟩

theorem denotes_below_iff (hfirst : first ≠ []) (hslash : ∀ name ∈ first, '/' ∉ name) :
    (tokens true (quotedNames first ++ ['/', '*', '*'])).Denotes text ↔
      ∃ run, (∀ c ∈ run, c ≠ '\n') ∧ text = ['/'].intercalate (first ++ [run]) := by
  have hstars : tokens true ['*', '*'] = [.anything] := rfl
  have hjoin : ∀ run, ['/'].intercalate (first ++ [run]) =
      ['/'].intercalate first ++ '/' :: run := by
    intro run
    simp [intercalate_append hfirst (List.cons_ne_nil run [])]
  simp only [denotes_quotedNames_slash_iff hslash, hstars, denotes_anything_cons_iff,
    denotes_nil_iff, hjoin]
  constructor
  · rintro ⟨_, rfl, run, _, rfl, hline, rfl⟩
    exact ⟨run, hline, by simp⟩
  · rintro ⟨run, hline, rfl⟩
    exact ⟨run, rfl, run, [], by simp, hline, rfl⟩

/-- Two stars between names, before them or after them stand for any directories whose names hold no
newline: between names and before them perhaps for none, after them for one name at least. -/
theorem matchesWhole_directories_iff (hfirst : first ≠ []) (hlast : last ≠ [])
    (hnames : ∀ name ∈ first ++ last, name ≠ [] ∧ '/' ∉ name) {path : TreePath}
    (h : path.IsNormal) :
    ((Rule.patternOf (quotedNames first ++ '/' :: inAnyDirectory (quotedNames last))).isSome =
          true →
        (matchesWhole (quotedNames first ++ '/' :: inAnyDirectory (quotedNames last))
            path.text = true ↔
          ∃ between, path.components = first ++ between ++ last ∧
            ∀ name ∈ between, '\n' ∉ name)) ∧
      ((Rule.patternOf (inAnyDirectory (quotedNames last))).isSome = true →
        (matchesWhole (inAnyDirectory (quotedNames last)) path.text = true ↔
          ∃ above, path.components = above ++ last ∧ ∀ name ∈ above, '\n' ∉ name)) ∧
      ((Rule.patternOf (quotedNames first ++ ['/', '*', '*'])).isSome = true →
        (matchesWhole (quotedNames first ++ ['/', '*', '*']) path.text = true ↔
          ∃ below, below ≠ [] ∧ path.components = first ++ below ∧
            ∀ name ∈ below, '\n' ∉ name)) := by
  obtain ⟨above, habove⟩ := List.exists_mem_of_ne_nil first hfirst
  obtain ⟨below, hbelow⟩ := List.exists_mem_of_ne_nil last hlast
  have hslash : ∀ name ∈ first ++ last, '/' ∉ name := fun name hname => (hnames name hname).2
  have hne : above ≠ [] := (hnames above (List.mem_append_left _ habove)).1
  have hne' : below ≠ [] := (hnames below (List.mem_append_right _ hbelow)).1
  obtain ⟨hslash_first, hslash_last⟩ := List.forall_mem_append.1 hslash
  refine ⟨fun hfits => ?_, fun hfits => ?_, fun hfits => ?_⟩
  · rw [matchesWhole_iff_denotes, and_iff_right hfits, denotes_between_iff hfirst hlast hslash]
    exact h.text_eq_or_exists_run_iff ⟨above, List.mem_append_left _ habove, hne⟩ hslash
  · rw [matchesWhole_iff_denotes, and_iff_right hfits,
      denotes_directories_quotedNames_iff hlast hslash_last]
    have hname : ∃ name ∈ [] ++ last, name ≠ [] := ⟨below, hbelow, hne'⟩
    exact h.text_eq_or_exists_run_iff hname hslash_last
  · rw [matchesWhole_iff_denotes, and_iff_right hfits, denotes_below_iff hfirst hslash_first]
    have hname : ∃ name ∈ first ++ [], name ≠ [] := ⟨above, by simpa using habove, hne⟩
    simpa using h.exists_run_iff hname (by simpa using hslash_first)

/-- The stars stand for `k` between the other names of the path, for the two names above the last
one, and for the two names below the first one. -/
theorem matchesWhole_directories_iff_quoted :
    let first := ["a*".toList]
    let last := [" b".toList]
    let path := TreePath.ofComponents ["a*".toList, "k".toList, " b".toList]
    first ≠ [] ∧ last ≠ [] ∧ (∀ name ∈ first ++ last, name ≠ [] ∧ '/' ∉ name) ∧ path.IsNormal ∧
      quotedNames first ++ '/' :: inAnyDirectory (quotedNames last) =
        "\\a\\*/**/\\ \\b".toList ∧
      (Rule.patternOf "\\a\\*/**/\\ \\b".toList).isSome = true ∧
      matchesWhole "\\a\\*/**/\\ \\b".toList "a*/k/ b".toList = true ∧
      (Rule.patternOf "**/\\ \\b".toList).isSome = true ∧
      matchesWhole "**/\\ \\b".toList "a*/k/ b".toList = true ∧
      (Rule.patternOf "\\a\\*/**".toList).isSome = true ∧
      matchesWhole "\\a\\*/**".toList "a*/k/ b".toList = true := by
  intro first last path
  have hfirst : first ≠ [] := List.cons_ne_nil _ _
  have hlast : last ≠ [] := List.cons_ne_nil _ _
  have hnames : ∀ name ∈ first ++ last, name ≠ [] ∧ '/' ∉ name := by decide
  have hnormal : path.IsNormal := by decide
  have hbetween : (Rule.patternOf "\\a\\*/**/\\ \\b".toList).isSome = true := by decide
  have hbefore : (Rule.patternOf "**/\\ \\b".toList).isSome = true := by decide
  have hafter : (Rule.patternOf "\\a\\*/**".toList).isSome = true := by decide
  obtain ⟨hstars, hstars', hstars''⟩ := matchesWhole_directories_iff hfirst hlast hnames hnormal
  refine ⟨hfirst, hlast, hnames, hnormal, rfl, hbetween, ?_, hbefore, ?_, hafter, ?_⟩
  · exact (hstars hbetween).2 ⟨["k".toList], rfl, by decide⟩
  · exact (hstars' hbefore).2 ⟨["a*".toList, "k".toList], rfl, by decide⟩
  · exact (hstars'' hafter).2 ⟨["k".toList, " b".toList], by decide, rfl, by decide⟩

end Pattern

end PathIgnore
