import PathIgnore.Proofs.MemoryTree.Building
import PathIgnore.Proofs.Text.Lines

/-!
# Rule files of a tree in memory

A rule file is written by changes that name its directory, in whichever spelling. What is written
starts a line of its own, so the lines of the file are those of the texts one after the other
(`lines_textOfWritten`). Main statement: the lines of a rule file depend on these texts alone, and a
rule file that is marked as unreadable stays so (`linesAt_build`).
-/

namespace PathIgnore.MemoryTree

/-! ## Lines that are written -/

variable {text : Text} {written : List Text}

theorem eq_newline_of_mem_getLast?_endLines (text : Text) :
    ∀ c ∈ (endLines text).getLast?, c = '\n' := by
  intro c hc
  unfold endLines at hc
  split at hc
  · rename_i hends
    rw [Bool.or_eq_true, List.isEmpty_iff, decide_eq_true_eq] at hends
    rcases hends with rfl | hlast
    · cases hc
    · rw [hlast] at hc
      exact (Option.some.inj hc).symm
  · rw [List.getLast?_concat] at hc
    exact (Option.some.inj hc).symm

/-- The newline that ends the last line makes no further line. Only a carriage return would be taken
into the line ending. -/
theorem lines_endLines (h : text.getLast? ≠ some '\r') : (endLines text).lines = text.lines := by
  induction text using Text.lineInduction with
  | last text hline =>
    unfold endLines
    split
    · rfl
    · rename_i hends
      rw [Bool.or_eq_true, not_or, List.isEmpty_iff] at hends
      rw [Text.lines_append_newline hline, Text.lines_of_not_mem hline, if_neg hends.1,
        Text.dropCarriageReturn_of_getLast?_ne h]
      rfl
  | line piece rest hpiece ih =>
    have hrest : rest.getLast? ≠ some '\r' := by
      intro hlast
      apply h
      rw [List.getLast?_append, List.getLast?_cons, hlast]
      rfl
    have hended : endLines (piece ++ ['\n']) = piece ++ ['\n'] := by simp [endLines]
    have hcut : piece ++ '\n' :: rest = (piece ++ ['\n']) ++ rest := by simp
    rw [hcut, endLines_append hended, ← List.append_cons, ← List.append_cons,
      Text.lines_append_newline hpiece, Text.lines_append_newline hpiece, ih hrest]

theorem getLast?_textOfWritten_ne (h : ∀ text ∈ written, text.getLast? ≠ some '\r') :
    (textOfWritten written).getLast? ≠ some '\r' := by
  cases written with
  | nil => simp [textOfWritten]
  | cons latest earlier =>
    rw [textOfWritten_cons, List.getLast?_append]
    cases hlast : latest.getLast? with
    | some c =>
      have hlatest := h latest List.mem_cons_self
      rwa [hlast] at hlatest
    | none =>
      intro hreturn
      have hnewline := eq_newline_of_mem_getLast?_endLines (textOfWritten earlier) '\r' hreturn
      exact absurd hnewline (by decide)

/-- No line is lost or merged: the lines of a rule file are those of the texts that were written to
it, if none but the last of these ends in a carriage return. -/
theorem lines_textOfWritten (h : ∀ text ∈ written.tail, text.getLast? ≠ some '\r') :
    (textOfWritten written).lines = written.reverse.flatMap Text.lines := by
  induction written with
  | nil => rfl
  | cons latest earlier ih =>
    have hearlier : ∀ text ∈ earlier, text.getLast? ≠ some '\r' := h
    rw [textOfWritten_cons, Text.lines_append (eq_newline_of_mem_getLast?_endLines _),
      lines_endLines (getLast?_textOfWritten_ne hearlier),
      ih fun text htext => hearlier text (List.mem_of_mem_tail htext)]
    simp

/-! ## Changes -/

/-- The text that a change writes to the rule file of a directory. -/
def Change.textFor? (directory : TreePath) : Change → Option Text
  | .ruleFile name text => if TreePath.parse name = .ok directory then some text else none
  | _ => none

/-- Whether a change marks the rule file of a directory as unreadable. -/
def Change.MarksUnreadable (directory : TreePath) : Change → Prop
  | .unreadable name => TreePath.parse name = .ok directory
  | _ => False

instance (change : Change) (directory : TreePath) : Decidable (change.MarksUnreadable directory) :=
  match change with
  | .unreadable name => inferInstanceAs (Decidable (TreePath.parse name = .ok directory))
  | .ruleFile _ _ | .directory _ | .file _ | .reset => inferInstanceAs (Decidable False)

/-- The texts that changes write to the rule file of a directory, in their order. -/
def textsFor (directory : TreePath) (changes : List Change) : List Text :=
  changes.filterMap (Change.textFor? directory)

variable {tree : MemoryTree} {change : Change} {changes : List Change} {directory : TreePath}

theorem ruleFiles_addFile (tree : MemoryTree) (place : TreePath) :
    (tree.addFile place).ruleFiles = tree.ruleFiles := by
  unfold addFile
  split <;> rfl

theorem unreadable_addFile (tree : MemoryTree) (place : TreePath) :
    (tree.addFile place).unreadable = tree.unreadable := by
  unfold addFile
  split <;> rfl

/-- The step: a change writes to the rule file that it names, and to no other. -/
theorem getElem?_ruleFiles_add (tree : MemoryTree) (change : Change) (directory : TreePath) :
    (tree.add change).ruleFiles[directory]? =
      match change.textFor? directory with
      | some text => some (text :: tree.ruleFiles[directory]?.getD [])
      | none => tree.ruleFiles[directory]? := by
  unfold add
  cases change with
  | ruleFile name text =>
    simp only [Change.place?, Change.textFor?]
    cases hread : TreePath.parse name with
    | error error => rfl
    | ok place =>
      rcases eq_or_ne place directory with rfl | hne
      · simp [Except.toOption, addRuleFile, addDirectory, getElem?_appendRuleFile_self]
      · have hother := getElem?_appendRuleFile_of_ne hne.symm text tree.ruleFiles
        simp [Except.toOption, addRuleFile, addDirectory, hother, hne]
  | directory name | unreadable name =>
    simp only [Change.place?, Change.textFor?]
    cases TreePath.parse name <;> rfl
  | file name =>
    simp only [Change.place?, Change.textFor?]
    cases TreePath.parse name with
    | error error => rfl
    | ok place => simp [Except.toOption, ruleFiles_addFile]
  | reset => rfl

theorem contains_unreadable_add (tree : MemoryTree) (change : Change) (directory : TreePath) :
    (tree.add change).unreadable.contains directory ↔
      tree.unreadable.contains directory ∨ change.MarksUnreadable directory := by
  unfold add
  cases change with
  | unreadable name =>
    simp only [Change.place?, Change.MarksUnreadable]
    cases TreePath.parse name with
    | error error => simp [Except.toOption]
    | ok place => simp [Except.toOption, addUnreadable, addDirectory, or_comm]
  | ruleFile name text | directory name =>
    simp only [Change.place?, Change.MarksUnreadable, or_false]
    cases TreePath.parse name <;> rfl
  | file name =>
    simp only [Change.place?, Change.MarksUnreadable, or_false]
    cases TreePath.parse name with
    | error error => rfl
    | ok place => simp [Except.toOption, unreadable_addFile]
  | reset => simp [Change.MarksUnreadable]

/-! ## Runs of changes -/

/-- The run: a rule file holds what the changes write to it, and is missing if they write none. -/
theorem getElem?_ruleFiles_foldl_add (changes : List Change) (directory : TreePath) :
    (changes.foldl add .empty).ruleFiles[directory]? =
      if textsFor directory changes = [] then none
      else some (textsFor directory changes).reverse := by
  induction changes using List.reverseRecOn with
  | nil => simp [empty, textsFor]
  | append_singleton earlier change ih =>
    rw [List.foldl_append, List.foldl_cons, List.foldl_nil, getElem?_ruleFiles_add, ih]
    have htexts : textsFor directory (earlier ++ [change]) =
        textsFor directory earlier ++ (change.textFor? directory).toList := by
      rw [textsFor, List.filterMap_append, List.filterMap_cons]
      cases change.textFor? directory <;> rfl
    rw [htexts]
    cases change.textFor? directory with
    | none => simp
    | some text =>
      by_cases hnone : textsFor directory earlier = []
      · simp [hnone]
      · simp [hnone]

/-- The run: the unreadable rule files are those that a change marks. -/
theorem contains_unreadable_foldl_add (changes : List Change) (directory : TreePath) :
    (changes.foldl add .empty).unreadable.contains directory ↔
      ∃ change ∈ changes, change.MarksUnreadable directory := by
  induction changes using List.reverseRecOn with
  | nil => simp [empty]
  | append_singleton earlier change ih =>
    rw [List.foldl_append, List.foldl_cons, List.foldl_nil, contains_unreadable_add, ih]
    simp only [List.mem_append, List.mem_singleton, or_and_right, exists_or, exists_eq_left]

theorem linesAt_foldl_add_of_marked (h : ∃ change ∈ changes, change.MarksUnreadable directory) :
    (changes.foldl add .empty).linesAt directory =
      .error ⟨(directory.toNative ⟨[]⟩).join (.ofText defaultRuleFileName), .unreadable⟩ := by
  rw [linesAt, if_pos ((contains_unreadable_foldl_add changes directory).2 h)]

theorem linesAt_foldl_add_of_not_marked
    (h : ¬∃ change ∈ changes, change.MarksUnreadable directory) :
    (changes.foldl add .empty).linesAt directory =
      .ok (if textsFor directory changes = [] then none
        else some (textOfWritten (textsFor directory changes).reverse).lines) := by
  rw [linesAt, if_neg (mt (contains_unreadable_foldl_add changes directory).1 h), ruleFile?,
    getElem?_ruleFiles_foldl_add]
  split <;> rfl

theorem textsFor_eq_nil_iff :
    textsFor directory changes = [] ↔
      ∀ name text, .ruleFile name text ∈ changes → TreePath.parse name ≠ .ok directory := by
  rw [textsFor, List.filterMap_eq_nil_iff]
  constructor
  · intro hnone name text hchange hread
    have hwrites := hnone _ hchange
    simp [Change.textFor?, hread] at hwrites
  · intro hnames change hchange
    cases change with
    | ruleFile name text => simp [Change.textFor?, hnames name text hchange]
    | directory | file | unreadable | reset => rfl

/-- Changes that name places build a tree that holds what was written to its rule files. One that a
change marks as unreadable gives an error, whatever changes are made after that. Another is missing
just if no change names its directory, in any spelling, and otherwise its lines are those of the
texts that were written to it, in their order: none is lost and no two are merged, unless a line
ending is left in half before more is written. Nothing but these texts and marks counts. -/
theorem linesAt_build (hplaces : ∀ change ∈ changes, change.place?.isSome) :
    ∃ tree, build changes = .ok tree ∧ ∀ directory : TreePath,
      ((∃ change ∈ changes, change.MarksUnreadable directory) →
        ∀ more : List Change, (∀ change ∈ more, change.place?.isSome) →
          ∃ later, build (changes ++ more) = .ok later ∧ later.linesAt directory =
            .error ⟨(directory.toNative ⟨[]⟩).join (.ofText defaultRuleFileName), .unreadable⟩) ∧
      ((¬∃ change ∈ changes, change.MarksUnreadable directory) →
        (tree.linesAt directory = .ok none ↔
          ∀ name text, .ruleFile name text ∈ changes → TreePath.parse name ≠ .ok directory) ∧
        ((∃ name text, .ruleFile name text ∈ changes ∧ TreePath.parse name = .ok directory) →
          (∀ text ∈ (textsFor directory changes).dropLast, text.getLast? ≠ some '\r') →
          tree.linesAt directory =
            .ok (some ((textsFor directory changes).flatMap Text.lines)))) ∧
      ∀ others : List Change, (∀ change ∈ others, change.place?.isSome) →
        textsFor directory others = textsFor directory changes →
        ((∃ change ∈ others, change.MarksUnreadable directory) ↔
          ∃ change ∈ changes, change.MarksUnreadable directory) →
        ∃ same, build others = .ok same ∧ same.linesAt directory = tree.linesAt directory := by
  refine ⟨_, build_eq_ok hplaces, fun directory => ⟨fun hmarked more hmore => ?_,
    fun hmarked => ⟨?_, fun hnamed hends => ?_⟩, fun others hothers htexts hmarks => ?_⟩⟩
  · refine ⟨_, build_eq_ok (List.forall_mem_append.2 ⟨hplaces, hmore⟩), ?_⟩
    obtain ⟨change, hchange, hmarks⟩ := hmarked
    exact linesAt_foldl_add_of_marked ⟨change, List.mem_append_left more hchange, hmarks⟩
  · rw [linesAt_foldl_add_of_not_marked hmarked, ← textsFor_eq_nil_iff]
    split <;> simp [*]
  · have hsome : textsFor directory changes ≠ [] := by
      obtain ⟨name, text, hchange, hread⟩ := hnamed
      exact fun hnone => textsFor_eq_nil_iff.1 hnone name text hchange hread
    have hearlier : ∀ text ∈ (textsFor directory changes).reverse.tail,
        text.getLast? ≠ some '\r' := by
      intro text htext
      rw [List.tail_reverse, List.mem_reverse] at htext
      exact hends text htext
    rw [linesAt_foldl_add_of_not_marked hmarked, if_neg hsome, lines_textOfWritten hearlier,
      List.reverse_reverse]
  · refine ⟨_, build_eq_ok hothers, ?_⟩
    by_cases hmarked : ∃ change ∈ changes, change.MarksUnreadable directory
    · rw [linesAt_foldl_add_of_marked hmarked, linesAt_foldl_add_of_marked (hmarks.2 hmarked)]
    · rw [linesAt_foldl_add_of_not_marked hmarked,
        linesAt_foldl_add_of_not_marked (mt hmarks.1 hmarked), htexts]

/-- Lines that are written in turns with other changes and under other spellings stay apart, and the
carriage return that is written last stays in its line. -/
theorem linesAt_build_interleaved :
    let changes : List Change :=
      [.ruleFile "a".toList "x".toList, .directory "b".toList, .ruleFile "./a/".toList [],
        .ruleFile "b".toList "y".toList, .ruleFile "a".toList "\n".toList, .file "a/f".toList,
        .unreadable "b".toList, .ruleFile "a/.".toList "z\r".toList]
    let directory := TreePath.ofComponents [['a']]
    let marked := TreePath.ofComponents [['b']]
    (∀ change ∈ changes, change.place?.isSome) ∧
      ∃ tree, build changes = .ok tree ∧
        tree.linesAt directory = .ok (some ["x".toList, [], "z\r".toList]) ∧
        tree.linesAt .root = .ok none ∧
        (∃ same, build (changes.filter (·.textFor? directory |>.isSome)) = .ok same ∧
          same.linesAt directory = tree.linesAt directory) ∧
        ∃ later, build (changes ++ [.ruleFile "b".toList [], .directory "b".toList]) = .ok later ∧
          later.linesAt marked =
            .error ⟨(marked.toNative ⟨[]⟩).join (.ofText defaultRuleFileName), .unreadable⟩ := by
  intro changes directory marked
  have hplaces : ∀ change ∈ changes, change.place?.isSome := by decide
  obtain ⟨tree, htree, hlines⟩ := linesAt_build hplaces
  obtain ⟨-, hdirectory, hsame⟩ := hlines directory
  obtain ⟨-, hroot, -⟩ := hlines .root
  have htexts : (textsFor directory changes).flatMap Text.lines =
      ["x".toList, [], "z\r".toList] := by decide
  refine ⟨hplaces, tree, htree, ?_, ?_, hsame _ (by decide) (by decide) (by decide), ?_⟩
  · rw [← htexts]
    exact (hdirectory (by decide)).2 ⟨"a".toList, "x".toList, by decide, by decide⟩ (by decide)
  · exact (hroot (by decide)).1.2 (textsFor_eq_nil_iff.1 (by decide))
  · exact (hlines marked).1 (by decide) _ (by decide)

end PathIgnore.MemoryTree
