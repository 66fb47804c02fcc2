import Mathlib.Data.List.Induction
import PathIgnore.Proofs.Text.Cutting
import PathIgnore.TreePath.Lineage

/-!
# Paths in normal form

A path in normal form is given by its names. This module relates the operations on paths to the
list of names, and shows that reading a text or a native path gives a path in normal form
(`IsParsed.isNormal`).
-/

namespace PathIgnore.TreePath

/-- Whether a text may stand between the slashes of a path in normal form. -/
def IsName (name : Text) : Prop :=
  name ≠ [] ∧ name ≠ ['.'] ∧ name ≠ ['.', '.'] ∧ '/' ∉ name

/-- Whether the path was read from a text or from a native path. -/
def IsParsed (path : TreePath) : Prop :=
  (∃ text, parse text = .ok path) ∨ ∃ native, ofNative native = .ok path

instance (name : Text) : Decidable (IsName name) :=
  inferInstanceAs (Decidable (_ ∧ _))

theorem isName_iff {name : Text} :
    IsName name ↔ isDull name = false ∧ name ≠ ['.', '.'] ∧ '/' ∉ name := by
  simp [IsName, isDull, and_assoc]

theorem ne_nil_of_isName {names : List Text} (h : ∀ name ∈ names, IsName name) :
    ∀ name ∈ names, name ≠ [] :=
  fun name hname => (h name hname).1

theorem slash_not_mem_of_isName {names : List Text} (h : ∀ name ∈ names, IsName name) :
    ∀ name ∈ names, '/' ∉ name :=
  fun name hname => (h name hname).2.2.2

/-! ## Paths by their names -/

@[simp] theorem ofComponents_nil : ofComponents [] = root := rfl

theorem ofComponents_concat (names : List Text) (name : Text) :
    ofComponents (names ++ [name]) = ⟨name, names.reverse⟩ := by
  simp [ofComponents, ofLine]

theorem line_ofComponents {names : List Text} (h : names ≠ []) :
    (ofComponents names).line = names.reverse := by
  cases names using List.reverseRecOn with
  | nil => exact absurd rfl h
  | append_singleton front name => simp [ofComponents_concat, line]

theorem components_ofComponents {names : List Text} (h : ∀ name ∈ names, name ≠ []) :
    (ofComponents names).components = names := by
  cases names with
  | nil => rfl
  | cons first rest =>
    rw [components, line_ofComponents (by simp), List.reverse_reverse, List.filter_eq_self]
    simpa using h

theorem isRoot_ofComponents {names : List Text} (h : ∀ name ∈ names, name ≠ []) :
    (ofComponents names).isRoot = names.isEmpty := by
  cases names using List.reverseRecOn with
  | nil => rfl
  | append_singleton front name =>
    have hname : name.isEmpty = false := by simpa using h name (by simp)
    rw [ofComponents_concat, isRoot, hname, Bool.and_false]
    simp

theorem textOfLine_reverse (names : List Text) :
    textOfLine names.reverse = ['/'].intercalate names := by
  induction names with
  | nil => rfl
  | cons name rest ih =>
    cases rest with
    | nil => simp [textOfLine]
    | cons next rest =>
      rw [List.reverse_cons, textOfLine_concat (by simp), ih, List.intercalate_cons_cons]
      simp

theorem text_ofComponents (names : List Text) :
    (ofComponents names).text = ['/'].intercalate names := by
  cases names with
  | nil => rfl
  | cons first rest => rw [text, line_ofComponents (by simp), textOfLine_reverse]

theorem intercalate_ne_nil {names : List Text} (hne : names ≠ [])
    (h : ∀ name ∈ names, name ≠ []) : ['/'].intercalate names ≠ [] :=
  intercalate_ne_nil_of_mem (List.head_mem hne) (h _ (List.head_mem hne))

theorem intercalate_eq_nil_iff {names : List Text} (h : ∀ name ∈ names, name ≠ []) :
    ['/'].intercalate names = [] ↔ names = [] := by
  constructor
  · intro hnil
    by_contra hne
    exact intercalate_ne_nil hne h hnil
  · rintro rfl
    rfl

theorem parent?_ofComponents_concat (names : List Text) {name : Text} (h : name ≠ []) :
    (ofComponents (names ++ [name])).parent? = some (ofComponents names) := by
  cases names using List.reverseRecOn with
  | nil => simp [ofComponents, ofLine, parent?, h]
  | append_singleton front last => simp [ofComponents, ofLine, parent?]

/-- From a directory that a path lies in, the names that lead on from there are seen. -/
theorem relativeTo?_ofComponents_append {above : List Text} (h : ∀ name ∈ above, name ≠ [])
    (below : List Text) :
    (ofComponents (above ++ below)).relativeTo? (ofComponents above) =
      some (['/'].intercalate below) := by
  cases above with
  | nil => rw [ofComponents_nil, relativeTo?_root, List.nil_append, text_ofComponents]
  | cons first rest =>
    have hline : (ofComponents (first :: rest ++ below)).line =
        below.reverse ++ (ofComponents (first :: rest)).line := by
      rw [line_ofComponents (by simp), line_ofComponents (by simp), List.reverse_append]
    rw [relativeTo?_of_line_eq hline (by simp [isRoot_ofComponents h]), textOfLine_reverse]

/-- Slashes between names that are added at once make no difference. -/
theorem join_ofComponents_intercalate {names : List Text} (hnames : ∀ name ∈ names, name ≠ [])
    {more : List Text} (hmore : more ≠ []) (h : ∀ name ∈ more, '/' ∉ name) :
    (ofComponents names).join (['/'].intercalate more) = ofComponents (names ++ more) := by
  rw [join, List.splitOn_intercalate '/' h hmore, isRoot_ofComponents hnames, ofComponents,
    ofComponents, List.reverse_append]
  cases names with
  | nil => rfl
  | cons first rest =>
    have hline := line_ofComponents (List.cons_ne_nil first rest)
    rw [ofComponents] at hline
    rw [hline]
    rfl

theorem join_ofComponents {names : List Text} (hnames : ∀ name ∈ names, name ≠ []) {name : Text}
    (h : '/' ∉ name) : (ofComponents names).join name = ofComponents (names ++ [name]) := by
  have hone : ∀ other ∈ [name], '/' ∉ other := by simpa using h
  have hjoin := join_ofComponents_intercalate hnames (List.cons_ne_nil name []) hone
  rwa [List.intercalate_singleton] at hjoin

/-! ## Normal form -/

theorem isNormal_ofComponents {names : List Text} (h : ∀ name ∈ names, IsName name) :
    (ofComponents names).IsNormal := by
  cases names with
  | nil => exact isNormal_root
  | cons first rest =>
    right
    intro piece hpiece
    rw [line_ofComponents (by simp), List.mem_reverse] at hpiece
    simpa [isName_iff] using h piece hpiece

/-- A path in normal form is given by its names. -/
theorem IsNormal.exists_names {path : TreePath} (h : path.IsNormal) :
    ∃ names : List Text, (∀ name ∈ names, IsName name) ∧ path = ofComponents names := by
  rcases h with rfl | h
  · exact ⟨[], by simp, rfl⟩
  · refine ⟨path.line.reverse, ?_, ?_⟩
    · intro name hname
      simpa [isName_iff] using h name (List.mem_reverse.1 hname)
    · simp [ofComponents, line, ofLine]

theorem IsNormal.isName {path : TreePath} (h : path.IsNormal) :
    ∀ name ∈ path.components, IsName name := by
  obtain ⟨names, hnames, rfl⟩ := h.exists_names
  rwa [components_ofComponents (ne_nil_of_isName hnames)]

theorem IsNormal.ofComponents_components {path : TreePath} (h : path.IsNormal) :
    ofComponents path.components = path := by
  obtain ⟨names, hnames, rfl⟩ := h.exists_names
  rw [components_ofComponents (ne_nil_of_isName hnames)]

theorem IsNormal.components_ne_nil {path : TreePath} (h : path.IsNormal) (hroot : path ≠ root) :
    path.components ≠ [] := by
  intro hnil
  apply hroot
  rw [← h.ofComponents_components, hnil]
  rfl

theorem IsNormal.line_eq (h : path.IsNormal) (hroot : path ≠ root) :
    path.line = path.components.reverse := by
  rw [← line_ofComponents (h.components_ne_nil hroot), h.ofComponents_components]

theorem IsNormal.intercalate_components {path : TreePath} (h : path.IsNormal) :
    ['/'].intercalate path.components = path.text := by
  rw [← text_ofComponents, h.ofComponents_components]

theorem IsNormal.splitOn_text {path : TreePath} (h : path.IsNormal) (hroot : path ≠ root) :
    path.text.splitOn '/' = path.components := by
  rw [← h.intercalate_components]
  exact List.splitOn_intercalate '/' (slash_not_mem_of_isName h.isName) (h.components_ne_nil hroot)

theorem IsNormal.text_ne_nil {path : TreePath} (h : path.IsNormal) (hroot : path ≠ root) :
    path.text ≠ [] := by
  rw [← h.intercalate_components]
  exact intercalate_ne_nil (h.components_ne_nil hroot) (ne_nil_of_isName h.isName)

/-- Joined names are the text of a path in normal form only if they are the path's names. -/
theorem IsNormal.text_eq_intercalate_iff {path : TreePath} (h : path.IsNormal) {names : List Text}
    (hne : ['/'].intercalate names ≠ []) (hslash : ∀ name ∈ names, '/' ∉ name) :
    path.text = ['/'].intercalate names ↔ path.components = names := by
  constructor
  · intro htext
    have hroot : path ≠ root := by
      rintro rfl
      exact hne htext.symm
    have hnames : names ≠ [] := by
      rintro rfl
      exact hne rfl
    rw [← h.splitOn_text hroot, htext, List.splitOn_intercalate '/' hslash hnames]
  · rintro rfl
    exact h.intercalate_components.symm

/-- The text of a path in normal form does not end in a `/`, as a name would be empty. -/
theorem IsNormal.text_ne_append_slash {path : TreePath} (h : path.IsNormal) (front : Text) :
    path.text ≠ front ++ ['/'] := by
  intro htext
  have hroot : path ≠ root := by
    rintro rfl
    simp at htext
  have hnames := h.splitOn_text hroot
  rw [htext, List.splitOn_append_cons_self] at hnames
  have hempty : ([] : Text) ∈ path.components := by simp [← hnames]
  exact (h.isName [] hempty).1 rfl

/-! ## Reading paths -/

/-- The pieces of a text that are neither empty nor `.`, in order. -/
def keptPieces (text : Text) : List Text :=
  (text.splitOn '/').filter fun piece => piece ≠ [] ∧ piece ≠ ['.']

theorem keptPieces_eq (text : Text) : keptPieces text = (text.splitOn '/').filter (!isDull ·) := by
  refine List.filter_congr fun piece _ => ?_
  simp [isDull]

theorem isName_of_mem_keptPieces {text : Text} (hup : ['.', '.'] ∉ text.splitOn '/') :
    ∀ name ∈ keptPieces text, IsName name := by
  intro name hname
  obtain ⟨hmem, hkept⟩ := List.mem_filter.1 hname
  obtain ⟨hnil, hdot⟩ : name ≠ [] ∧ name ≠ ['.'] := by simpa using hkept
  exact ⟨hnil, hdot, fun heq => hup (heq ▸ hmem), not_mem_of_mem_splitOn hmem⟩

/-- A `/` at the start is told before a `..`. -/
theorem parse_eq_error_iff {text : Text} {error : PathError} :
    parse text = .error error ↔
      text.head? = some '/' ∧ error = .absolute text ∨
        text.head? ≠ some '/' ∧ ['.', '.'] ∈ text.splitOn '/' ∧ error = .parentTraversal text := by
  unfold parse
  split
  · rename_i hhead
    simp [hhead, eq_comm]
  · rename_i hhead
    split
    · rename_i hup
      simp [hhead, hup, eq_comm]
    · rename_i hup
      simp [hhead, hup]

theorem parse_eq_ok {text : Text} (hhead : text.head? ≠ some '/')
    (hup : ['.', '.'] ∉ text.splitOn '/') :
    parse text = .ok (ofComponents (keptPieces text)) := by
  rw [parse, if_neg hhead, if_neg hup, keptPieces_eq]

theorem isNormal_of_parse {text : Text} {path : TreePath} (h : parse text = .ok path) :
    path.IsNormal := by
  by_cases hhead : text.head? = some '/'
  · rw [parse_eq_error_iff.2 (.inl ⟨hhead, rfl⟩)] at h
    cases h
  by_cases hup : ['.', '.'] ∈ text.splitOn '/'
  · rw [parse_eq_error_iff.2 (.inr ⟨hhead, hup, rfl⟩)] at h
    cases h
  · rw [parse_eq_ok hhead hup] at h
    cases h
    exact isNormal_ofComponents (isName_of_mem_keptPieces hup)

theorem isPlain_slash : Utf8.IsPlain '/' := by decide

theorem isPlain_dot : Utf8.IsPlain '.' := by decide

/-- A name of a native path is decoded to a name. -/
theorem isName_decode {bytes : List UInt8} (hdull : NativePath.isDull bytes = false)
    (hup : bytes ≠ [NativePath.dot, NativePath.dot]) (hslash : NativePath.slash ∉ bytes) :
    IsName (Utf8.decode bytes) := by
  obtain ⟨hnil, hdot⟩ : bytes ≠ [] ∧ bytes ≠ [NativePath.dot] := by
    simpa [NativePath.isDull] using hdull
  -- Only its own bytes are decoded to `.`, `..` or nothing.
  refine ⟨?_, ?_, ?_, ?_⟩
  · intro h
    exact hnil ((Utf8.decode_eq_iff (by simp)).1 h)
  · intro h
    exact hdot ((Utf8.decode_eq_iff (by simpa using isPlain_dot)).1 h)
  · intro h
    exact hup ((Utf8.decode_eq_iff (by simpa using isPlain_dot)).1 h)
  · intro h
    exact hslash (Utf8.mem_of_mem_decode h isPlain_slash)

theorem isName_decode_of_mem_components {native : NativePath} {bytes : List UInt8}
    (h : .name bytes ∈ native.components) : IsName (Utf8.decode bytes) := by
  have hrest : .name bytes ∈ NativePath.componentsOf native.pieces := by
    unfold NativePath.components at h
    simp only at h
    split at h
    · simpa using h
    split at h
    · simpa using h
    · exact h
  obtain ⟨piece, hpiece, hcomponent⟩ := List.mem_map.1 hrest
  obtain ⟨hmem, hdull⟩ := List.mem_filter.1 hpiece
  unfold NativePath.componentOf at hcomponent
  split at hcomponent
  · cases hcomponent
  · rename_i hup
    cases hcomponent
    exact isName_decode (by simpa using hdull) hup (not_mem_of_mem_splitOn hmem)

theorem isNormal_of_ofNativeComponents {native : NativePath}
    {components : List NativePath.Component}
    (hcomponents : ∀ bytes, .name bytes ∈ components → IsName (Utf8.decode bytes))
    {names : List Text} (hnames : ∀ name ∈ names, IsName name) {path : TreePath}
    (h : ofNativeComponents native (ofComponents names) components = .ok path) :
    path.IsNormal := by
  induction components generalizing names with
  | nil =>
    cases h
    exact isNormal_ofComponents hnames
  | cons component rest ih =>
    have hrest : ∀ bytes, .name bytes ∈ rest → IsName (Utf8.decode bytes) :=
      fun bytes hbytes => hcomponents bytes (List.mem_cons_of_mem _ hbytes)
    cases component with
    | here => exact ih hrest hnames h
    | up => cases h
    | root => cases h
    | name bytes =>
      have hname : IsName (Utf8.decode bytes) := hcomponents bytes (by simp)
      rw [ofNativeComponents, join_ofComponents (ne_nil_of_isName hnames) hname.2.2.2] at h
      refine ih hrest ?_ h
      intro name hmem
      rcases List.mem_append.1 hmem with hmem | hmem
      · exact hnames name hmem
      · obtain rfl := List.mem_singleton.1 hmem
        exact hname

theorem isNormal_of_ofNative {native : NativePath} {path : TreePath}
    (h : ofNative native = .ok path) : path.IsNormal := by
  have hnames : ∀ name ∈ ([] : List Text), IsName name := by simp
  exact isNormal_of_ofNativeComponents
    (fun _ hbytes => isName_decode_of_mem_components hbytes) hnames h

/-- Reading gives a path in normal form. -/
theorem IsParsed.isNormal {path : TreePath} (h : path.IsParsed) : path.IsNormal := by
  rcases h with ⟨text, h⟩ | ⟨native, h⟩
  · exact isNormal_of_parse h
  · exact isNormal_of_ofNative h

end PathIgnore.TreePath
