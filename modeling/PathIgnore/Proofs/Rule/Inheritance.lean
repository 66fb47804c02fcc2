import PathIgnore.Proofs.Rule.Matching

/-!
# Inheriting from the directory above

A rule covers a path if it applies to the path itself or to one of the directories on the way there
(`covers_iff_appliesTo`). So what a rule says about a path is known from its name and from what the
rule says about the directory that holds it. Main statement: this recursion, with what follows from
it for what lies below a directory and for rules that are limited to directories
(`covers_iff_covers_parent`).
-/

namespace PathIgnore.Rule

/-- Whether the rule is found as the path itself, or after one of its slashes if it is not anchored.
What lies above the path is not looked at. -/
def AppliesTo (rule : Rule) (path : Text) (isDirectory : Bool) : Prop :=
  (rule.directoryOnly = false ∨ isDirectory = true) ∧ ∃ pattern, rule.pattern = some pattern ∧
    (pattern.accepts path = true ∨ rule.anchored = false ∧
      ∃ before rest, path = before ++ '/' :: rest ∧ pattern.accepts rest = true)

variable {rule : Rule} {path : Text} {isDirectory : Bool}

theorem appliesTo_iff_mayStart :
    rule.AppliesTo path isDirectory ↔
      (rule.directoryOnly = false ∨ isDirectory = true) ∧ ∃ pattern, rule.pattern = some pattern ∧
        ∃ before part, path = before ++ part ∧ MayStart rule.anchored before ∧
          pattern.Denotes part := by
  simp only [AppliesTo, Pattern.accepts_iff]
  refine and_congr_right fun _ => exists_congr fun pattern => and_congr_right fun _ => ?_
  constructor
  · rintro (hpart | ⟨hanchored, directory, rest, rfl, hrest⟩)
    · exact ⟨[], path, rfl, .inl rfl, hpart⟩
    · exact ⟨directory ++ ['/'], rest, by simp, .inr ⟨hanchored, directory, rfl⟩, hrest⟩
  · rintro ⟨before, part, rfl, rfl | ⟨hanchored, directory, rfl⟩, hpart⟩
    · exact .inl hpart
    · exact .inr ⟨hanchored, directory, part, by simp, hpart⟩

/-- A rule covers a path if it applies to the path or to a directory on the way there. -/
theorem covers_iff_appliesTo :
    rule.covers path isDirectory = true ↔
      path ≠ [] ∧ (rule.AppliesTo path isDirectory ∨
        ∃ directory below, path = directory ++ '/' :: below ∧ rule.AppliesTo directory true) := by
  simp only [covers_iff, appliesTo_iff_mayStart]
  refine and_congr_right fun _ => ?_
  constructor
  · rintro ⟨pattern, hpattern, before, part, rest, rfl, hstart, hpart, hend⟩
    cases rest with
    | nil =>
      left
      exact ⟨by simpa [mayEnd] using hend, pattern, hpattern, before, part, by simp, hstart, hpart⟩
    | cons c below =>
      right
      obtain rfl : c = '/' := by simpa [mayEnd] using hend
      exact ⟨before ++ part, below, by simp, .inr trivial, pattern, hpattern, before, part, rfl, hstart,
        hpart⟩
  · rintro (⟨hend, pattern, hpattern, before, part, rfl, hstart, hpart⟩ |
      ⟨directory, below, rfl, -, pattern, hpattern, before, part, rfl, hstart, hpart⟩)
    · exact ⟨pattern, hpattern, before, part, [], by simp, hstart, hpart, by simpa [mayEnd] using hend⟩
    · exact ⟨pattern, hpattern, before, part, '/' :: below, rfl, hstart, hpart, rfl⟩

/-- The directories on the way to a name in `parent` are `parent` and those on the way to it. -/
theorem append_slash_eq_iff {directory below parent name : Text} (hname : '/' ∉ name) :
    parent ++ '/' :: name = directory ++ '/' :: below ↔
      directory = parent ∧ below = name ∨
        ∃ more, parent = directory ++ '/' :: more ∧ below = more ++ '/' :: name := by
  constructor
  · intro h
    rcases List.append_eq_append_iff.1 h with ⟨more, hdirectory, hname'⟩ | ⟨more, hparent, hbelow⟩
    · cases more with
      | nil => exact .inl ⟨by simpa using hdirectory, by simpa using hname'.symm⟩
      | cons c more =>
        -- The slash after the directory would be one of the name.
        refine absurd ?_ hname
        simp [(List.cons.inj hname').2]
    · cases more with
      | nil => exact .inl ⟨by simpa using hparent.symm, by simpa using hbelow⟩
      | cons c more =>
        obtain ⟨rfl, hmore⟩ := List.cons.inj hbelow
        exact .inr ⟨more, hparent, hmore⟩
  · rintro (⟨rfl, rfl⟩ | ⟨more, rfl, rfl⟩)
    · rfl
    · simp

theorem covers_append_slash_iff {parent name : Text} (hparent : parent ≠ []) (hname : '/' ∉ name) :
    rule.covers (parent ++ '/' :: name) isDirectory = true ↔
      rule.covers parent true = true ∨ rule.AppliesTo (parent ++ '/' :: name) isDirectory := by
  simp only [covers_iff_appliesTo, append_slash_eq_iff hname]
  constructor
  · rintro ⟨-, happlies | ⟨directory, below, ⟨rfl, rfl⟩ | ⟨more, rfl, rfl⟩, habove⟩⟩
    · exact .inr happlies
    · exact .inl ⟨hparent, .inl habove⟩
    · exact .inl ⟨hparent, .inr ⟨directory, more, rfl, habove⟩⟩
  · rintro (⟨-, happlies | ⟨directory, more, rfl, habove⟩⟩ | happlies)
    · exact ⟨by simp, .inr ⟨parent, name, .inl ⟨rfl, rfl⟩, happlies⟩⟩
    · exact ⟨by simp, .inr ⟨directory, more ++ '/' :: name, .inr ⟨more, rfl, rfl⟩, habove⟩⟩
    · exact ⟨by simp, .inl happlies⟩

theorem covers_of_covers_false (h : rule.covers path false = true) :
    rule.covers path true = true := by
  rw [covers_iff_appliesTo] at h ⊢
  obtain ⟨hne, ⟨-, hfound⟩ | habove⟩ := h
  · exact ⟨hne, .inl ⟨.inr rfl, hfound⟩⟩
  · exact ⟨hne, .inr habove⟩

theorem not_appliesTo_of_directoryOnly (h : rule.directoryOnly = true) (path : Text) :
    ¬rule.AppliesTo path false := by
  simp [AppliesTo, h]

/-- A rule covers what lies in a directory if it covers the directory, or if it applies to the path
itself. So it covers all that lies below a directory that it covers, it covers no less if the path
is a directory, and if it is limited to directories, it covers anything else just if it covers the
directory that holds it; the rule's own directory is not covered. -/
theorem covers_iff_covers_parent (rule : Rule) {parent : Text} (hparent : parent ≠ []) :
    (∀ name isDirectory, '/' ∉ name →
      (rule.covers (parent ++ '/' :: name) isDirectory = true ↔
        rule.covers parent true = true ∨ rule.AppliesTo (parent ++ '/' :: name) isDirectory)) ∧
      (∀ below isDirectory belowIsDirectory, rule.covers parent isDirectory = true →
        rule.covers (parent ++ '/' :: below) belowIsDirectory = true) ∧
      (∀ path, rule.covers path false = true → rule.covers path true = true) ∧
      (rule.directoryOnly = true → ∀ name, '/' ∉ name →
        rule.covers (parent ++ '/' :: name) false = rule.covers parent true ∧
          rule.covers name false = false) := by
  refine ⟨fun name isDirectory hname => covers_append_slash_iff hparent hname,
    fun below isDirectory belowIsDirectory h => covers_append_slash h below belowIsDirectory,
    fun path => covers_of_covers_false, ?_⟩
  intro hdirectories name hname
  have hnot := not_appliesTo_of_directoryOnly hdirectories
  constructor
  · rw [Bool.eq_iff_iff, covers_append_slash_iff hparent hname, or_iff_left (hnot _)]
  · rw [← Bool.not_eq_true, covers_iff_appliesTo]
    rintro ⟨-, happlies | ⟨directory, below, rfl, -⟩⟩
    · exact hnot name happlies
    · exact hname (by simp)

/-- The rule of `*.d/` covers `x/b.d` only as a directory, and then all that lies below it. -/
theorem covers_iff_covers_parent_directory :
    let rule : Rule := ⟨"*.d".toList, false, false, true,
      some [.component, .literal '.', .literal 'd']⟩
    ofLine? "*.d/".toList = some rule ∧ rule.directoryOnly = true ∧ "x".toList ≠ [] ∧
      "x/b.d".toList ≠ [] ∧ '/' ∉ "b.d".toList ∧ '/' ∉ "c".toList ∧
      rule.covers "x/b.d".toList true = true ∧ rule.covers "x/b.d".toList false = false ∧
      rule.covers "x/b.d/c".toList false = true ∧ rule.covers "x/b.d/k/c".toList false = true := by
  intro rule
  have hline : ofLine? "*.d/".toList = some rule := by decide
  have habove : "x".toList ≠ [] := by decide
  have hparent : "x/b.d".toList ≠ [] := by decide
  have hname : '/' ∉ "b.d".toList := by decide
  have hbelow : '/' ∉ "c".toList := by decide
  have htop : rule.covers "x".toList true = false := by
    rw [covers_eq_any rfl]
    decide
  have hcovers : rule.covers "x/b.d".toList true = true := by
    rw [covers_eq_any rfl]
    decide
  obtain ⟨-, -, -, hfile⟩ := covers_iff_covers_parent rule habove
  obtain ⟨-, hdeep, -, hinside⟩ := covers_iff_covers_parent rule hparent
  refine ⟨hline, rfl, habove, hparent, hname, hbelow, hcovers, ?_, ?_, ?_⟩
  · exact (hfile rfl "b.d".toList hname).1.trans htop
  · exact (hinside rfl "c".toList hbelow).1.trans hcovers
  · exact hdeep "k/c".toList true false hcovers

end PathIgnore.Rule
