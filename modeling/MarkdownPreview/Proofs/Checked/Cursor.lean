import MarkdownPreview.Proofs.Checked.Place
import MarkdownPreview.Walk.Cursor

/-!
# A cursor whose places have to be there

The operations of a cursor with every access checked: the range that a splice exchanges has to lie
in the level, and the place of the cursor must not fall below the start of it. Whatever a visitor
asks for, both hold (`splice?_eq`), so a visit never fails (`performAll?_eq`).
-/

set_option autoImplicit false

namespace MarkdownPreview.Cursor

variable {α : Type}

open Checked

/-- A splice with its range and the new place of the cursor checked. -/
def splice? (c : Cursor α) (start count : Nat) (insert : List α) : Option (List α × Cursor α) := do
  let start := min start c.level.length
  let stop := min (start + count) c.level.length
  let (taken, level) ← exchange? c.level start stop insert
  if !c.removed && start ≤ c.index && c.index < stop then
    return (taken, { c with level, index := start, removed := true })
  else if stop ≤ c.index then
    let index ← sub? (c.index + insert.length) taken.length
    return (taken, { c with level, index })
  else return (taken, { c with level })

/-- **A splice never fails**, wherever it starts and however far it goes. -/
theorem splice?_eq (c : Cursor α) (start count : Nat) (insert : List α) :
    c.splice? start count insert = some (c.splice start count insert) := by
  have hlo : min start c.level.length ≤ min (min start c.level.length + count) c.level.length := by
    omega
  have hhi : min (min start c.level.length + count) c.level.length ≤ c.level.length := by omega
  simp only [splice?, splice, exchange?_eq hlo hhi, Option.bind_eq_bind, Option.bind_some]
  split
  · rfl
  · split
    · -- No more is taken out than there is before the cursor.
      rename_i hstop
      rw [sub?_eq]
      · rfl
      · simp only [List.length_take, List.length_drop]
        omega
    · rfl

def insertAfter? (c : Cursor α) (x : α) : Option (Cursor α) :=
  (c.splice? (c.index + 1) 0 [x]).map Prod.snd

def remove? (c : Cursor α) : Option (Option α × Cursor α) :=
  if c.removed then some (none, c)
  else (c.splice? c.index 1 []).map fun (taken, c) => (taken.head?, c)

theorem insertAfter?_eq (c : Cursor α) (x : α) : c.insertAfter? x = some (c.insertAfter x) := by
  rw [insertAfter?, splice?_eq]
  rfl

theorem remove?_eq (c : Cursor α) : c.remove? = some c.remove := by
  rw [remove?, remove, splice?_eq]
  split <;> rfl

/-- What a visitor does in one step, with every access checked. -/
def perform? (c : Cursor α) : Action α → Option (Outcome α × Cursor α)
  | .splice start count insert =>
    (c.splice? start count insert).map fun (old, c) => (.cut old, c)
  | .insertAfter x => (c.insertAfter? x).map fun c => (.nothing, c)
  | .remove => c.remove?.map fun (old, c) => (.taken old, c)
  | a => some (c.perform a)

def performAll? (c : Cursor α) : List (Action α) → Option (List (Outcome α) × Cursor α)
  | [] => some ([], c)
  | a :: actions => do
    let (outcome, c) ← c.perform? a
    let (outcomes, c) ← performAll? c actions
    return (outcome :: outcomes, c)

theorem perform?_eq (c : Cursor α) (a : Action α) : c.perform? a = some (c.perform a) := by
  cases a with
  | splice start count insert => rw [perform?, splice?_eq]; rfl
  | insertAfter x => rw [perform?, insertAfter?_eq]; rfl
  | remove => rw [perform?, remove?_eq]; rfl
  | peek _ | replace _ | resume _ | edit _ | editAt _ _ => rfl

/-- No step of a visit fails. -/
theorem performAll?_eq (c : Cursor α) (actions : List (Action α)) :
    c.performAll? actions = some (c.performAll actions) := by
  induction actions generalizing c with
  | nil => rfl
  | cons a actions ih =>
    rw [performAll?, perform?_eq]
    simp only [Option.bind_eq_bind, Option.bind_some, ih]
    rfl

end MarkdownPreview.Cursor
