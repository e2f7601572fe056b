/-!
# Parts between commas
-/
namespace LenientJson.Text

/-- The parts one after the other, with commas between them. -/
def commaSeparated : List (List Char) → List Char
  | [] => []
  | [part] => part
  | part :: rest => part ++ ',' :: commaSeparated rest

theorem commaSeparated_cons (part : List Char) {rest : List (List Char)} (h : rest ≠ []) :
    commaSeparated (part :: rest) = part ++ ',' :: commaSeparated rest := by
  cases rest with
  | nil => exact absurd rfl h
  | cons second more => rfl

end LenientJson.Text
