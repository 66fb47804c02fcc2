import PathIgnore.Proofs.NativePath.Names
import PathIgnore.Proofs.NativePath.Steps

/-!
# Tree paths and native paths

A native path is read by its steps, each decoded by itself (`ofNative_eq`), and a tree path is
written as a native one by its names. Main statement: reading a native path is reading the text that
it is shown as (`ofNative_eq_parse`).
-/

namespace PathIgnore.TreePath

open NativePath (IsPlain ofPieces stepsOf)

/-! ## Reading -/

theorem ofNativeComponents_componentsOf (native : NativePath) {names : List Text}
    (hnames : ∀ name ∈ names, name ≠ []) {pieces : List (List UInt8)}
    (hpieces : ∀ piece ∈ pieces, NativePath.slash ∉ piece) :
    ofNativeComponents native (ofComponents names) (NativePath.componentsOf pieces) =
      if [NativePath.dot, NativePath.dot] ∈ stepsOf pieces then
        .error (.parentTraversal native.toText)
      else .ok (ofComponents (names ++ (stepsOf pieces).map Utf8.decode)) := by
  induction pieces generalizing names with
  | nil => simp [NativePath.componentsOf, ofNativeComponents]
  | cons piece rest ih =>
    obtain ⟨hslash, hrest⟩ := List.forall_mem_cons.1 hpieces
    rw [NativePath.componentsOf_eq_map]
    cases hdull : NativePath.isDull piece with
    | true =>
      rw [NativePath.stepsOf_cons_of_isDull hdull]
      exact ih hnames hrest
    | false =>
      rw [NativePath.stepsOf_cons hdull, List.map_cons]
      by_cases hup : piece = [NativePath.dot, NativePath.dot]
      · simp [hup, ofNativeComponents]
      · have hname := isName_decode hdull hup hslash
        have hmore : ∀ name ∈ names ++ [Utf8.decode piece], name ≠ [] := by
          simpa [or_imp, forall_and, hname.1] using hnames
        have hcomponent : NativePath.componentOf piece = .name piece := by
          simp [NativePath.componentOf, hup]
        rw [hcomponent, ofNativeComponents, join_ofComponents hnames hname.2.2.2,
          ← NativePath.componentsOf_eq_map, ih hmore hrest]
        simp [Ne.symm hup]

/-- Only the steps of a relative path count. The first of two faults is the one that is told. -/
theorem ofNative_eq (native : NativePath) :
    ofNative native =
      if native.isAbsolute then .error (.absolute native.toText)
      else if [NativePath.dot, NativePath.dot] ∈ stepsOf native.pieces then
        .error (.parentTraversal native.toText)
      else .ok (ofComponents ((stepsOf native.pieces).map Utf8.decode)) := by
  have hpieces : ∀ piece ∈ native.pieces, NativePath.slash ∉ piece :=
    fun _ => not_mem_of_mem_splitOn
  have hnames : ∀ name ∈ ([] : List Text), name ≠ [] := nofun
  have hread := ofNativeComponents_componentsOf native hnames hpieces
  unfold ofNative NativePath.components
  simp only
  split
  · rfl
  split
  · exact hread
  · exact hread

/-- Whether a path lies below the root of a tree is not a question of reading it. -/
theorem ofNative_ne_outsideRoot (native : NativePath) (path root : Text) :
    ofNative native ≠ .error (.outsideRoot path root) := by
  rw [ofNative_eq]
  split
  · simp
  split
  · simp
  · simp

theorem isDull_decode (bytes : List UInt8) :
    isDull (Utf8.decode bytes) = NativePath.isDull bytes := by
  have hdot : Utf8.decode bytes = ['.'] ↔ bytes = [NativePath.dot] :=
    Utf8.decode_eq_iff (by simpa using isPlain_dot)
  simp [isDull, NativePath.isDull, Utf8.decode_eq_nil_iff, hdot]

theorem splitOn_toText (native : NativePath) :
    native.toText.splitOn '/' = native.pieces.map Utf8.decode :=
  Utf8.splitOn_decode isPlain_slash native.bytes

theorem head?_toText_iff (native : NativePath) :
    native.toText.head? = some '/' ↔ native.isAbsolute = true := by
  rw [NativePath.toText, Utf8.head?_decode isPlain_slash, NativePath.isAbsolute, decide_eq_true_iff]
  rfl

theorem up_mem_splitOn_toText_iff (native : NativePath) :
    ['.', '.'] ∈ native.toText.splitOn '/' ↔
      [NativePath.dot, NativePath.dot] ∈ stepsOf native.pieces := by
  have hup : ∀ bytes, Utf8.decode bytes = ['.', '.'] ↔ bytes = [NativePath.dot, NativePath.dot] :=
    fun bytes => Utf8.decode_eq_iff (by simpa using isPlain_dot)
  simp [splitOn_toText, NativePath.up_mem_stepsOf_iff, hup]

theorem filter_splitOn_toText (native : NativePath) :
    (native.toText.splitOn '/').filter (!isDull ·) = (stepsOf native.pieces).map Utf8.decode := by
  rw [splitOn_toText, List.filter_map, stepsOf]
  congr 2
  funext bytes
  simp [isDull_decode]

/-- A native path is read as the text that it is shown as: decoding it piece by piece, between its
slashes, gives the pieces of the decoded text. -/
theorem ofNative_eq_parse (native : NativePath) :
    native.toText.splitOn '/' = native.pieces.map Utf8.decode ∧
      ofNative native = parse native.toText := by
  refine ⟨splitOn_toText native, ?_⟩
  rw [ofNative_eq, parse, filter_splitOn_toText]
  simp only [head?_toText_iff, up_mem_splitOn_toText_iff]

/-- An encoding that is cut short ends before the slash that follows it. -/
example : ofNative ⟨[0x61, 0xE2, 0x82, NativePath.slash, 0x62]⟩ =
    .ok (ofComponents [['a', '\uFFFD'], ['b']]) := by
  decide

/-! ## Writing -/

/-- The names that lead to the path on a disk. -/
def nativeNames (path : TreePath) : List (List UInt8) :=
  path.components.map Utf8.encode

theorem isPlain_encode {name : Text} (h : IsName name) : IsPlain (Utf8.encode name) := by
  obtain ⟨hnil, hdot, hup, hslash⟩ := h
  have hne : ∀ other : Text, name ≠ other → Utf8.encode name ≠ Utf8.encode other :=
    fun other hne heq => hne (Utf8.encode_inj.1 heq)
  exact ⟨hne [] hnil, hne ['.'] hdot, hne ['.', '.'] hup, Utf8.not_mem_encode (by decide) hslash⟩

variable {path : TreePath}

theorem IsNormal.isPlain (h : path.IsNormal) : ∀ name ∈ path.nativeNames, IsPlain name := by
  intro name hname
  obtain ⟨text, htext, rfl⟩ := List.mem_map.1 hname
  exact isPlain_encode (h.isName text htext)

theorem IsNormal.nativeNames_ne_nil (h : path.IsNormal) (hroot : path ≠ root) :
    path.nativeNames ≠ [] := by
  simpa [nativeNames] using h.components_ne_nil hroot

theorem map_decode_nativeNames (path : TreePath) :
    path.nativeNames.map Utf8.decode = path.components := by
  simp [nativeNames, Function.comp_def]

/-- A path other than the root is joined to where its tree stands. -/
theorem IsNormal.toNative_eq_join (h : path.IsNormal) (hroot : path ≠ root) (base : NativePath) :
    path.toNative base = base.join (ofPieces path.nativeNames) := by
  have htext : NativePath.ofText path.text = ofPieces path.nativeNames := by
    rw [NativePath.ofText, ← h.intercalate_components, Utf8.encode_intercalate]
    rfl
  unfold toNative
  split
  · rename_i hnil
    exact absurd hnil (h.components_ne_nil hroot)
  · rw [h.ofComponents_components, htext]

theorem IsNormal.stepsOf_nativeNames (h : path.IsNormal) :
    stepsOf path.nativeNames = path.nativeNames := by
  refine List.filter_eq_self.2 fun name hname => ?_
  obtain ⟨hnil, hdot, -, -⟩ := h.isPlain name hname
  simp [NativePath.isDull, hnil, hdot]

/-- The native path of a place leads from where the tree stands by the names of the place. -/
theorem IsNormal.stepsOf_toNative (h : path.IsNormal) {base : NativePath}
    (hbase : base.isAbsolute = true) :
    (path.toNative base).isAbsolute = true ∧
      stepsOf (path.toNative base).pieces = stepsOf base.pieces ++ path.nativeNames := by
  rcases eq_or_ne path root with rfl | hroot
  · exact ⟨hbase, (List.append_nil _).symm⟩
  have hslash : ∀ name ∈ path.nativeNames, NativePath.slash ∉ name :=
    fun name hname => (h.isPlain name hname).2.2.2
  rw [h.toNative_eq_join hroot]
  refine ⟨NativePath.isAbsolute_join hbase, ?_⟩
  rw [NativePath.stepsOf_join hbase (NativePath.isAbsolute_ofPieces h.isPlain),
    NativePath.pieces_ofPieces (h.nativeNames_ne_nil hroot) hslash, h.stepsOf_nativeNames]

/-- A relative path whose steps are the names of a place leads there. -/
theorem IsNormal.ofNative_eq_ok (h : path.IsNormal) {native : NativePath}
    (hrelative : native.isAbsolute = false) (hsteps : stepsOf native.pieces = path.nativeNames) :
    ofNative native = .ok path := by
  have hup : [NativePath.dot, NativePath.dot] ∉ path.nativeNames :=
    fun hmem => (h.isPlain _ hmem).2.2.1 rfl
  rw [ofNative_eq, hrelative, if_neg Bool.false_ne_true, hsteps, if_neg hup,
    map_decode_nativeNames, h.ofComponents_components]

end PathIgnore.TreePath
