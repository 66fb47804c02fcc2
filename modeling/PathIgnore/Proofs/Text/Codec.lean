import PathIgnore.Text

/-!
# Reading items back

A text may hold items one after the other, with nothing between them. A codec writes an item so that
it can be read off the front of a text again, whatever follows it. Main statement: written items are
all read back, if what ends them is not read as one more item (`Codec.readAll?_flatMap_append`).
-/

namespace PathIgnore.Text

/-- A way to write items one after the other. -/
structure Codec (α : Type) where
  write : α → Text
  /-- Reads the item that a text starts with, and what follows it. -/
  read? : Text → Option (α × Text)
  read?_write_append : ∀ item rest, read? (write item ++ rest) = some (item, rest)

namespace Codec

variable {α : Type} {codec : Codec α} {ending : Text}

/-- Reads items until only the ending is left. An item that takes no character is not read. -/
def readAll? (codec : Codec α) (ending text : Text) : Option (List α) :=
  if text = ending then some []
  else
    match codec.read? text with
    | none => none
    | some (item, rest) =>
      if rest.length < text.length then (codec.readAll? ending rest).map (item :: ·) else none
termination_by text.length

theorem readAll?_self (codec : Codec α) (ending : Text) :
    codec.readAll? ending ending = some [] := by
  rw [readAll?, if_pos rfl]

/-- An item is written with at least one character, if there is a text that starts with no item. -/
theorem write_ne_nil (hending : codec.read? ending = none) (item : α) : codec.write item ≠ [] := by
  intro hnil
  have hread := codec.read?_write_append item ending
  rw [hnil, List.nil_append, hending] at hread
  cases hread

theorem readAll?_write_append (hending : codec.read? ending = none) (item : α) (rest : Text) :
    codec.readAll? ending (codec.write item ++ rest) =
      (codec.readAll? ending rest).map (item :: ·) := by
  have hread := codec.read?_write_append item rest
  have hne : codec.write item ++ rest ≠ ending := by
    intro heq
    rw [heq, hending] at hread
    cases hread
  have hlt : rest.length < (codec.write item ++ rest).length := by
    have hpos := List.length_pos_iff.2 (write_ne_nil hending item)
    rw [List.length_append]
    omega
  rw [readAll?, if_neg hne, hread]
  exact if_pos hlt

/-- What is written is read back, item by item. -/
theorem readAll?_flatMap_append (hending : codec.read? ending = none) (items : List α) :
    codec.readAll? ending (items.flatMap codec.write ++ ending) = some items := by
  induction items with
  | nil => exact codec.readAll?_self ending
  | cons item items ih =>
    rw [List.flatMap_cons, List.append_assoc, readAll?_write_append hending, ih, Option.map_some]

end Codec

end PathIgnore.Text
