import PathIgnore.Proofs.TreePath.NormalForm

/-!
# Paths that can be reached

Reading a text fails or drops pieces of it (`parse_eq_error_iff`, `exists_parse_eq_ok`). The paths
that are made by reading, by going to the directory that holds a path and by adding names are just
the paths in normal form (`reachable_iff_isNormal`). Main statement: what their texts look like, and
that they are read back and put together again (`parse_and_reachable_texts`).
-/

namespace PathIgnore.TreePath

/-- The paths that reading a text or a native path gives, and those reached from there by going to
the directory that holds a path and by adding a name. -/
inductive Reachable : TreePath → Prop where
  | root : Reachable root
  | parse {text : Text} {path : TreePath} : parse text = .ok path → Reachable path
  | ofNative {native : NativePath} {path : TreePath} : ofNative native = .ok path → Reachable path
  | parent {path parent : TreePath} :
      Reachable path → path.parent? = some parent → Reachable parent
  | join {path : TreePath} {name : Text} : Reachable path → IsName name → Reachable (path.join name)

variable {path : TreePath} {text : Text}

/-! ## Reading texts -/

/-- Where reading does not fail, it gives the path of the pieces that are kept. -/
theorem exists_parse_eq_ok (hhead : text.head? ≠ some '/') (hup : ['.', '.'] ∉ text.splitOn '/') :
    ∃ path, parse text = .ok path ∧ path.components = keptPieces text ∧
      path.text = ['/'].intercalate (keptPieces text) := by
  have hnames := isName_of_mem_keptPieces hup
  exact ⟨_, parse_eq_ok hhead hup, components_ofComponents (ne_nil_of_isName hnames),
    text_ofComponents _⟩

/-- The text of a path in normal form does not start with a `/`, as a name would be empty. -/
theorem IsNormal.head?_text_ne (h : path.IsNormal) : path.text.head? ≠ some '/' := by
  intro hhead
  have hroot : path ≠ root := by
    rintro rfl
    simp at hhead
  -- Before a `/` at the start, there would be an empty piece.
  have hfirst := head?_splitOn_eq_nil_iff.2 (.inr hhead)
  rw [h.splitOn_text hroot] at hfirst
  exact (h.isName [] (List.mem_of_head? hfirst)).1 rfl

theorem IsNormal.getLast?_text_ne (h : path.IsNormal) : path.text.getLast? ≠ some '/' := by
  intro hlast
  obtain ⟨front, htext⟩ := List.getLast?_eq_some_iff.1 hlast
  exact h.text_ne_append_slash front htext

/-- A path in normal form is read back from its text. -/
theorem IsNormal.parse_text (h : path.IsNormal) : parse path.text = .ok path := by
  rcases eq_or_ne path root with rfl | hroot
  · rfl
  have hsplit := h.splitOn_text hroot
  have hup : ['.', '.'] ∉ path.text.splitOn '/' := by
    rw [hsplit]
    exact fun hmem => (h.isName _ hmem).2.2.1 rfl
  -- Between the slashes stand names, so no piece is dropped.
  have hkept : keptPieces path.text = path.components := by
    rw [keptPieces, hsplit, List.filter_eq_self]
    intro name hname
    obtain ⟨hnil, hdot, -, -⟩ := h.isName name hname
    simp [hnil, hdot]
  rw [parse_eq_ok h.head?_text_ne hup, hkept, h.ofComponents_components]

/-! ## Going up and down -/

theorem name?_ofComponents_concat (names : List Text) {name : Text} (h : name ≠ []) :
    (ofComponents (names ++ [name])).name? = some name := by
  rw [ofComponents_concat, name?, if_neg]
  simp [isRoot, h]

theorem exists_parent? (hroot : path ≠ root) : ∃ parent, path.parent? = some parent := by
  obtain ⟨last, above⟩ := path
  cases above with
  | nil =>
    have hlast : last ≠ [] := by
      rintro rfl
      exact hroot rfl
    exact ⟨root, by simp [parent?, hlast]⟩
  | cons next above => exact ⟨⟨next, above⟩, rfl⟩

/-- A path in normal form is the directory that holds it with its last name added. -/
theorem IsNormal.of_parent? {parent : TreePath} (h : path.IsNormal)
    (hparent : path.parent? = some parent) :
    parent.IsNormal ∧ ∃ name, IsName name ∧ path.name? = some name ∧ parent.join name = path := by
  obtain ⟨names, hnames, rfl⟩ := h.exists_names
  cases names using List.reverseRecOn with
  | nil => cases hparent
  | append_singleton front name =>
    have hfront : ∀ n ∈ front, IsName n := fun n hn => hnames n (List.mem_append_left _ hn)
    have hname : IsName name := hnames name (by simp)
    rw [parent?_ofComponents_concat front hname.1] at hparent
    cases hparent
    exact ⟨isNormal_ofComponents hfront, name, hname, name?_ofComponents_concat front hname.1,
      join_ofComponents (ne_nil_of_isName hfront) hname.2.2.2⟩

theorem IsNormal.isName_concat {name : Text} (h : path.IsNormal) (hname : IsName name) :
    ∀ n ∈ path.components ++ [name], IsName n := by
  simpa [or_imp, forall_and, hname] using h.isName

theorem IsNormal.join_eq {name : Text} (h : path.IsNormal) (hname : IsName name) :
    path.join name = ofComponents (path.components ++ [name]) := by
  have hjoin := join_ofComponents (ne_nil_of_isName h.isName) hname.2.2.2
  rwa [h.ofComponents_components] at hjoin

theorem IsNormal.join {name : Text} (h : path.IsNormal) (hname : IsName name) :
    (path.join name).IsNormal := by
  rw [h.join_eq hname]
  exact isNormal_ofComponents (h.isName_concat hname)

theorem IsNormal.components_join {name : Text} (h : path.IsNormal) (hname : IsName name) :
    (path.join name).components = path.components ++ [name] := by
  rw [h.join_eq hname]
  exact components_ofComponents (ne_nil_of_isName (h.isName_concat hname))

/-- Every step leads to a path in normal form again, and each such path is read from its text. -/
theorem reachable_iff_isNormal : Reachable path ↔ path.IsNormal := by
  constructor
  · intro h
    induction h with
    | root => exact isNormal_root
    | parse h => exact isNormal_of_parse h
    | ofNative h => exact isNormal_of_ofNative h
    | parent _ hparent ih => exact (ih.of_parent? hparent).1
    | join _ hname ih => exact ih.join hname
  · intro h
    exact .parse h.parse_text

/-- Reading fails just on a `/` at the start or a `..`, and keeps the other pieces that lead
somewhere. A path that can be reached has no `/` at its ends and names between its slashes; it is
read back from its text, and unless it is the root, it is its directory with its name added. -/
theorem parse_and_reachable_texts :
    (∀ text error, parse text = .error error ↔
        text.head? = some '/' ∧ error = .absolute text ∨
          text.head? ≠ some '/' ∧ ['.', '.'] ∈ text.splitOn '/' ∧
            error = .parentTraversal text) ∧
      (∀ text, text.head? ≠ some '/' → ['.', '.'] ∉ text.splitOn '/' →
        ∃ path, parse text = .ok path ∧ path.components = keptPieces text ∧
          path.text = ['/'].intercalate (keptPieces text)) ∧
      ∀ path, Reachable path →
        path.text.head? ≠ some '/' ∧ path.text.getLast? ≠ some '/' ∧
          (path ≠ root → path.text.splitOn '/' = path.components) ∧
          (∀ name ∈ path.components, name ≠ [] ∧ name ≠ ['.'] ∧ name ≠ ['.', '.']) ∧
          parse path.text = .ok path ∧
          (path ≠ root → ∃ parent name, path.parent? = some parent ∧ path.name? = some name ∧
            parent.join name = path) := by
  refine ⟨fun _ _ => parse_eq_error_iff, fun _ => exists_parse_eq_ok, fun path hreachable => ?_⟩
  have h := reachable_iff_isNormal.1 hreachable
  refine ⟨h.head?_text_ne, h.getLast?_text_ne, h.splitOn_text, ?_, h.parse_text, ?_⟩
  · intro name hname
    obtain ⟨hnil, hdot, hup, -⟩ := h.isName name hname
    exact ⟨hnil, hdot, hup⟩
  · intro hroot
    obtain ⟨parent, hparent⟩ := exists_parent? hroot
    obtain ⟨-, name, -, hname, hjoin⟩ := h.of_parent? hparent
    exact ⟨parent, name, hparent, hname, hjoin⟩

/-- The path of broken bytes, its directory, and a name that starts with two dots. -/
theorem parse_and_reachable_texts_broken :
    let native : NativePath := ⟨[0x2E, 0x2F, 0x61, 0x2F, 0x2F, 0xFF, 0x2F, 0x62]⟩
    let holder := ofComponents ["a".toList, "\uFFFD".toList]
    let path := holder.join "..c".toList
    ofNative native = .ok (holder.join ['b']) ∧ (holder.join ['b']).parent? = some holder ∧
      IsName "..c".toList ∧ Reachable path ∧ path.text = "a/\uFFFD/..c".toList ∧
      parse "a/\uFFFD/..c".toList = .ok path ∧ path ≠ root ∧
      (∃ parent name, path.parent? = some parent ∧ path.name? = some name ∧
        parent.join name = path) ∧
      parse "/..".toList = .error (.absolute "/..".toList) ∧
      ∃ other, parse ".//b/.c/".toList = .ok other ∧ other.text = "b/.c".toList := by
  intro native holder path
  have hnative : ofNative native = .ok (holder.join ['b']) := by decide
  have hparent : (holder.join ['b']).parent? = some holder := by decide
  have hname : IsName "..c".toList := by decide
  have hreachable : Reachable path := .join (.parent (.ofNative hnative) hparent) hname
  have htext : path.text = "a/\uFFFD/..c".toList := by decide
  have hroot : path ≠ root := by decide
  obtain ⟨hfails, hreads, hpaths⟩ := parse_and_reachable_texts
  obtain ⟨-, -, -, -, hread, hjoined⟩ := hpaths path hreachable
  rw [htext] at hread
  obtain ⟨other, hother, -, hkept⟩ := hreads ".//b/.c/".toList (by decide) (by decide)
  exact ⟨hnative, hparent, hname, hreachable, htext, hread, hroot, hjoined hroot,
    (hfails _ _).2 (.inl ⟨rfl, rfl⟩), other, hother, hkept.trans (by decide)⟩

end PathIgnore.TreePath
