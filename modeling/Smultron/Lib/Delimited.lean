import Mathlib.Data.List.Basic

/-!
# Fields with an escape

A field is written before a delimiter. An escape takes the element behind it literally, whatever it
is, so every text can be written as a field.
-/

namespace Delimited

variable {α : Type}

/-- The first list is a field for the second one. -/
inductive FieldText (esc delim : α) : List α → List α → Prop where
  | nil : FieldText esc delim [] []
  | plain {b : α} {raw text : List α} (free : b ≠ delim) (plain : b ≠ esc)
      (rest : FieldText esc delim raw text) : FieldText esc delim (b :: raw) (b :: text)
  | escaped {b : α} {raw text : List α} (rest : FieldText esc delim raw text) :
      FieldText esc delim (esc :: b :: raw) (b :: text)

variable {esc delim : α} [DecidableEq α]

/-- The text as a field. -/
def escape (esc delim : α) (text : List α) : List α :=
  text.flatMap fun b => if b = delim ∨ b = esc then [esc, b] else [b]

theorem escape_append (text text' : List α) :
    escape esc delim (text ++ text') = escape esc delim text ++ escape esc delim text' :=
  List.flatMap_append

theorem escape_cons (b : α) (text : List α) : escape esc delim (b :: text) =
    (if b = delim ∨ b = esc then [esc, b] else [b]) ++ escape esc delim text := List.flatMap_cons

theorem fieldText_escape (esc delim : α) (text : List α) :
    FieldText esc delim (escape esc delim text) text := by
  induction text with
  | nil => exact .nil
  | cons b text ih =>
    rw [escape_cons]
    split
    · exact .escaped ih
    next other => exact .plain (fun h => other (.inl h)) (fun h => other (.inr h)) ih

/-- What needs no escape is its own field. -/
theorem escape_of_free {text : List α} (free : ∀ b ∈ text, b ≠ delim ∧ b ≠ esc) :
    escape esc delim text = text := by
  rw [escape, List.flatMap_congr fun b mem => if_neg (not_or.mpr (free b mem))]
  exact List.flatMap_singleton' text

end Delimited
