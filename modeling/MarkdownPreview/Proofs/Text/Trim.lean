import Mathlib.Data.List.DropRight
import MarkdownPreview.Text.Blank

/-!
# Trimming at the end

`dropEndWhile` goes through a list from its start. That it is the library's `rdropWhile`, which goes
from the end, gives it that function's lemmas.
-/

set_option autoImplicit false

namespace MarkdownPreview.Text

theorem dropEndWhile_concat {α : Type} (p : α → Bool) (xs : List α) (x : α) :
    dropEndWhile p (xs ++ [x]) = if p x then dropEndWhile p xs else xs ++ [x] := by
  induction xs with
  | nil => rfl
  | cons y ys ih =>
    rw [List.cons_append, dropEndWhile, ih]
    by_cases hx : p x = true
    · simp only [if_pos hx]
      rw [dropEndWhile]
    · simp only [if_neg hx]
      split
      · rename_i hnil
        exact absurd hnil (by simp)
      · rename_i z zs hcons
        rw [hcons]

theorem dropEndWhile_eq_rdropWhile {α : Type} (p : α → Bool) (xs : List α) :
    dropEndWhile p xs = xs.rdropWhile p := by
  induction xs using List.reverseRecOn with
  | nil => rfl
  | append_singleton xs x ih => rw [dropEndWhile_concat, List.rdropWhile_concat, ih]

theorem dropEndWhile_append {α : Type} (p : α → Bool) (xs ys : List α) :
    dropEndWhile p (xs ++ ys)
      = if (dropEndWhile p ys).isEmpty then dropEndWhile p xs else xs ++ dropEndWhile p ys := by
  simp only [dropEndWhile_eq_rdropWhile, List.rdropWhile, List.reverse_append,
    List.dropWhile_append, List.isEmpty_reverse]
  split
  · rfl
  · rw [List.reverse_append, List.reverse_reverse]

/-- What is left of a list with an end hangs on what is left of the end. -/
theorem dropEndWhile_append_congr {α : Type} {p : α → Bool} {ys zs : List α} (xs : List α)
    (h : dropEndWhile p ys = dropEndWhile p zs) :
    dropEndWhile p (xs ++ ys) = dropEndWhile p (xs ++ zs) := by
  rw [dropEndWhile_append, dropEndWhile_append, h]

/-- Nothing is dropped before an element that stays. -/
theorem dropEndWhile_append_of_neg {α : Type} {p : α → Bool} {x : α} (hp : p x = false)
    (xs ys : List α) : dropEndWhile p (xs ++ x :: ys) = xs ++ x :: dropEndWhile p ys := by
  have hsplit : xs ++ x :: ys = (xs ++ [x]) ++ ys := by simp
  rw [hsplit, dropEndWhile_append, dropEndWhile_concat, hp]
  split
  · rename_i hnil
    simp [List.isEmpty_iff.mp hnil]
  · simp

theorem dropEndWhile_map {α β : Type} (f : α → β) (p : β → Bool) (xs : List α) :
    dropEndWhile p (xs.map f) = (dropEndWhile (fun x => p (f x)) xs).map f := by
  induction xs using List.reverseRecOn with
  | nil => rfl
  | append_singleton xs x ih =>
    rw [List.map_append, List.map_singleton, dropEndWhile_concat, dropEndWhile_concat, ih]
    split
    · rfl
    · rw [List.map_append, List.map_singleton]

/-- What is left is the list up to some place. -/
theorem exists_dropEndWhile_eq_take {α : Type} (p : α → Bool) (xs : List α) :
    ∃ n, dropEndWhile p xs = xs.take n := by
  rw [dropEndWhile_eq_rdropWhile]
  exact ⟨_, List.prefix_iff_eq_take.mp (List.rdropWhile_prefix p xs)⟩

/-- The last element left is none of those that are dropped. -/
theorem getLast?_dropEndWhile_ne {α : Type} {p : α → Bool} {x : α} (hx : p x = true)
    (xs : List α) : (dropEndWhile p xs).getLast? ≠ some x := by
  intro h
  rw [dropEndWhile_eq_rdropWhile] at h
  have hne : xs.rdropWhile p ≠ [] := by
    rintro hnil
    rw [hnil] at h
    cases h
  have hlast := List.rdropWhile_last_not p xs hne
  rw [List.getLast?_eq_some_getLast hne, Option.some.injEq] at h
  exact hlast (h ▸ hx)

theorem mem_of_mem_dropEndWhile {α : Type} {p : α → Bool} {x : α} {xs : List α}
    (h : x ∈ dropEndWhile p xs) : x ∈ xs := by
  rw [dropEndWhile_eq_rdropWhile] at h
  exact (List.rdropWhile_prefix p xs).subset h

theorem head?_dropEndWhile {α : Type} {p : α → Bool} {xs : List α} (h : dropEndWhile p xs ≠ []) :
    (dropEndWhile p xs).head? = xs.head? := by
  rw [dropEndWhile_eq_rdropWhile] at h ⊢
  obtain ⟨rest, hrest⟩ := List.rdropWhile_prefix p xs
  conv_rhs => rw [← hrest]
  rw [List.head?_append_of_ne_nil _ h]

end MarkdownPreview.Text
