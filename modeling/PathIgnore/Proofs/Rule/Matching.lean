import PathIgnore.Proofs.Pattern.Tokens
import PathIgnore.Rule.Coverage

/-!
# Matching by recursion on the path

The search for a rule works on sets of places. Here is the same answer by recursion on the path:
from the start of the path, and for a rule that is not anchored also after each slash, the pattern
leads to a place where a match may end (`covers_eq_any`).
-/

namespace PathIgnore.Rule

theorem patternOf_of_isSome {source : Text} (h : (patternOf source).isSome) :
    patternOf source = some (.ofText source) := by
  unfold patternOf at h ⊢
  simp only at h ⊢
  split at h
  · rename_i hfits
    rw [if_pos hfits]
  · cases h

/-- What remains of a path after each of its slashes. -/
def restsAfterSlash : Text → List Text
  | [] => []
  | c :: rest => if c = '/' then rest :: restsAfterSlash rest else restsAfterSlash rest

/-- What remains of a path where a match may start. -/
def starts (anchored : Bool) (path : Text) : List Text :=
  path :: if anchored then [] else restsAfterSlash path

theorem mem_restsAfterSlash {path rest : Text} :
    rest ∈ restsAfterSlash path ↔ ∃ directory, path = directory ++ '/' :: rest := by
  induction path with
  | nil => simp [restsAfterSlash]
  | cons c path ih =>
    unfold restsAfterSlash
    split
    · rename_i hc
      rw [List.mem_cons, ih]
      constructor
      · rintro (rfl | ⟨directory, h⟩)
        · exact ⟨[], by rw [hc]; rfl⟩
        · exact ⟨c :: directory, by rw [h]; rfl⟩
      · rintro ⟨directory, h⟩
        cases directory with
        | nil => exact .inl (List.cons.inj h).2.symm
        | cons d directory =>
          exact .inr ⟨directory, (List.cons.inj h).2⟩
    · rename_i hc
      rw [ih]
      constructor
      · rintro ⟨directory, h⟩
        exact ⟨c :: directory, by rw [h]; rfl⟩
      · rintro ⟨directory, h⟩
        cases directory with
        | nil => exact absurd (List.cons.inj h).1 hc
        | cons d directory =>
          exact ⟨directory, (List.cons.inj h).2⟩

theorem mem_starts {anchored : Bool} {path start : Text} :
    start ∈ starts anchored path ↔ ∃ before, path = before ++ start ∧ MayStart anchored before := by
  unfold starts MayStart
  rw [List.mem_cons]
  constructor
  · rintro (rfl | h)
    · exact ⟨[], rfl, .inl rfl⟩
    · cases anchored with
      | true => cases h
      | false =>
        obtain ⟨directory, rfl⟩ := mem_restsAfterSlash.1 h
        exact ⟨directory ++ ['/'], by simp, .inr ⟨rfl, directory, rfl⟩⟩
  · rintro ⟨before, rfl, rfl | ⟨rfl, directory, rfl⟩⟩
    · exact .inl rfl
    · exact .inr (mem_restsAfterSlash.2 ⟨directory, by simp⟩)

theorem covers_eq_any {rule : Rule} {pattern : Pattern} (h : rule.pattern = some pattern)
    (path : Text) (isDirectory : Bool) :
    rule.covers path isDirectory =
      (!path.isEmpty && (starts rule.anchored path).any
        (pattern.leadsTo (mayEnd rule.directoryOnly isDirectory))) := by
  rw [Bool.eq_iff_iff, covers_iff, Bool.and_eq_true, List.any_eq_true, Bool.not_eq_true',
    List.isEmpty_eq_false_iff]
  refine and_congr_right fun _ => ?_
  constructor
  · rintro ⟨other, hother, before, part, rest, rfl, hstart, hpart, hend⟩
    obtain rfl : pattern = other := Option.some.inj (h.symm.trans hother)
    refine ⟨part ++ rest, mem_starts.2 ⟨before, by simp, hstart⟩, ?_⟩
    exact Pattern.leadsTo_eq_true_iff.2 ⟨part, rest, rfl, hpart, hend⟩
  · rintro ⟨start, hmem, hleads⟩
    obtain ⟨before, rfl, hstart⟩ := mem_starts.1 hmem
    obtain ⟨part, rest, rfl, hpart, hend⟩ := Pattern.leadsTo_eq_true_iff.1 hleads
    exact ⟨pattern, h, before, part, rest, by simp, hstart, hpart, hend⟩

/-- On one line, where a match may start is what a leading `**/` stands for. -/
theorem denotes_directories_append_iff {anchored : Bool} {pattern : Pattern} {text : Text}
    (hline : '\n' ∉ text) :
    Pattern.Denotes ((if anchored then [] else [.directories]) ++ pattern) text ↔
      ∃ before part, text = before ++ part ∧ MayStart anchored before ∧ pattern.Denotes part := by
  unfold MayStart
  cases anchored with
  | true =>
    constructor
    · intro h
      exact ⟨[], text, rfl, .inl rfl, h⟩
    · rintro ⟨before, part, rfl, rfl | ⟨h, -⟩, hpart⟩
      · exact hpart
      · cases h
  | false =>
    rw [if_neg Bool.false_ne_true, List.singleton_append,
      Pattern.denotes_directories_cons_iff_of_line hline]
    constructor
    · rintro (hpart | ⟨directory, part, rfl, hpart⟩)
      · exact ⟨[], text, rfl, .inl rfl, hpart⟩
      · exact ⟨directory ++ ['/'], part, by simp, .inr ⟨rfl, directory, rfl⟩, hpart⟩
    · rintro ⟨before, part, rfl, rfl | ⟨-, directory, rfl⟩, hpart⟩
      · exact .inl hpart
      · exact .inr ⟨directory, part, by simp, hpart⟩

end PathIgnore.Rule
