import Mathlib.Data.List.Basic

/-!
# Places that have to be there

Looking up a place of a list, putting something there, taking it out: each of these needs the place
to be there, as a difference of two places needs the first to be the greater one. Here each of them
fails (`none`) where it has no meaning. A program written with them succeeds only if all its places
are right, and that is how it is shown that they are: `Checked` programs are proved equal to `some`
of what the library computes without asking.

Looking up a place is `xs[i]?`.
-/

set_option autoImplicit false

namespace MarkdownPreview.Checked

universe u

variable {α : Type u} {xs insert : List α} {i start stop a b : Nat}

/-- The difference of two numbers, which must not be negative. -/
def sub? (a b : Nat) : Option Nat := if b ≤ a then some (a - b) else none

/-- Puts an item in the place of another. -/
def put? (xs : List α) (i : Nat) (x : α) : Option (List α) :=
  if i < xs.length then some (xs.set i x) else none

/-- Takes one item out. -/
def takeOut? (xs : List α) (i : Nat) : Option (List α) :=
  if i < xs.length then some (xs.eraseIdx i) else none

/-- Puts an item between two others, or at an end. -/
def putIn? (xs : List α) (i : Nat) (x : α) : Option (List α) :=
  if i ≤ xs.length then some (xs.insertIdx i x) else none

/-- Takes out the items from `start` up to `stop` and puts others in their place. Returns what was
taken out and what there is now. -/
def exchange? (xs : List α) (start stop : Nat) (insert : List α) : Option (List α × List α) :=
  if start ≤ stop ∧ stop ≤ xs.length then
    some ((xs.drop start).take (stop - start), xs.take start ++ insert ++ xs.drop stop)
  else none

theorem sub?_eq (h : b ≤ a) : sub? a b = some (a - b) := if_pos h

theorem put?_eq (h : i < xs.length) (x : α) : put? xs i x = some (xs.set i x) := if_pos h

theorem takeOut?_eq (h : i < xs.length) : takeOut? xs i = some (xs.eraseIdx i) := if_pos h

theorem putIn?_eq (h : i ≤ xs.length) (x : α) : putIn? xs i x = some (xs.insertIdx i x) := if_pos h

theorem exchange?_eq (h : start ≤ stop) (h' : stop ≤ xs.length) (insert : List α) :
    exchange? xs start stop insert
      = some ((xs.drop start).take (stop - start), xs.take start ++ insert ++ xs.drop stop) :=
  if_pos ⟨h, h'⟩

end MarkdownPreview.Checked
