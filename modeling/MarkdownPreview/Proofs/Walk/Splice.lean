import Mathlib.Data.List.Basic
import MarkdownPreview.Walk.Cursor

/-!
# What a splice does to a cursor

The level after a splice is what one would write without a cursor (`level_splice`); that the range
is cut off at the end of the level needs no mention, since nothing is dropped there. For the place
of the cursor there are three cases: the range lies before it, after it, or takes the item out.
-/

set_option autoImplicit false

namespace MarkdownPreview.Cursor

universe u

variable {α : Type u} {c : Cursor α} {start count : Nat} {insert : List α}

theorem level_splice (c : Cursor α) (start count : Nat) (insert : List α) :
    (c.splice start count insert).2.level
      = c.level.take start ++ insert ++ c.level.drop (start + count) := by
  have htake : c.level.take (min start c.level.length) = c.level.take start :=
    List.take_eq_take_iff.mpr (by omega)
  have hdrop : c.level.drop (min (min start c.level.length + count) c.level.length)
      = c.level.drop (start + count) := List.drop_eq_drop_iff.mpr (by omega)
  rw [← htake, ← hdrop]
  unfold splice
  dsimp only
  split
  · rfl
  · split <;> rfl

/-- A range that ends before the cursor, or where it is. -/
theorem splice_before (insert : List α) (hi : c.index ≤ c.level.length) (h : start + count ≤ c.index) :
    (c.splice start count insert).2.index = c.index + insert.length - count
      ∧ (c.splice start count insert).2.removed = c.removed := by
  have hstart : min start c.level.length = start := by omega
  have hstop : min (start + count) c.level.length = start + count := by omega
  have hnot : ¬ c.index < start + count := by omega
  have hcount : min (start + count - start) (c.level.length - start) = count := by omega
  simp only [splice, hstart, hstop, hnot, h, decide_false, Bool.and_false, Bool.false_eq_true,
    if_false, if_true, List.length_take, List.length_drop, hcount, and_self]

/-- A range that starts after an item. -/
theorem splice_after (count : Nat) (insert : List α) (hi : c.index < c.level.length) (h : c.index < start) :
    (c.splice start count insert).2.index = c.index
      ∧ (c.splice start count insert).2.removed = c.removed := by
  have hstart : ¬ min start c.level.length ≤ c.index := by omega
  have hstop : ¬ min (min start c.level.length + count) c.level.length ≤ c.index := by omega
  simp only [splice, hstart, hstop, decide_false, Bool.and_false, Bool.false_and,
    Bool.false_eq_true, if_false, and_self]

/-- A range in which the current item lies. -/
theorem splice_covering (hr : c.removed = false) (hi : c.index < c.level.length)
    (hlo : start ≤ c.index) (hhi : c.index < start + count) :
    (c.splice start count insert).2.index = start
      ∧ (c.splice start count insert).2.removed = true := by
  have hstart : min start c.level.length = start := by omega
  have hstop : c.index < min (start + count) c.level.length := by omega
  simp only [splice, hstart, hstop, hlo, hr, decide_true, Bool.not_false, Bool.and_self, if_true,
    and_self]

/-- What has been taken out stays out. -/
theorem removed_splice (hr : c.removed = true) : (c.splice start count insert).2.removed = true := by
  unfold splice
  dsimp only
  split
  · rfl
  · split <;> exact hr

theorem resume?_splice (c : Cursor α) (start count : Nat) (insert : List α) :
    (c.splice start count insert).2.resume? = c.resume? := by
  unfold splice
  dsimp only
  split
  · rfl
  · split <;> rfl

end MarkdownPreview.Cursor
