/-!
# The cursor of a visit

While a level of a tree is being walked, a visitor holds a cursor: the items of the level, the
place of the item being visited, whether that item has been taken out, and where the visitor wants
the walk to go on. Every change of length goes through `splice`, which moves the place so that it
stays on the same item whatever is put in or taken out around it. Once a splice takes the current
item out, the cursor stands for the gap where it was, and there is no current item any more.

`Action` lists what a visitor can do in one step and `perform` does it; a visit is a sequence of
actions. None of this looks into the items.
-/

set_option autoImplicit false

namespace MarkdownPreview

universe u

/-- A place in one level of a tree. -/
structure Cursor (α : Type u) where
  level : List α
  /-- The place of the current item, or of the gap it left. -/
  index : Nat
  /-- Whether the current item has been taken out. -/
  removed : Bool := false
  /-- Where the walk shall go on, if not at the next place. -/
  resume? : Option Nat := none

namespace Cursor

variable {α : Type u}

/-- The item being visited, unless it has been taken out. -/
def current? (c : Cursor α) : Option α := if c.removed then none else c.level[c.index]?

/-- The sibling at a distance from the current place, backwards if it is negative. -/
def peek (c : Cursor α) (offset : Int) : Option α :=
  let place := (c.index : Int) + offset
  if place < 0 then none else c.level[place.toNat]?

/-- Takes out `count` items from `start` on and puts `insert` in their place; a range that reaches
beyond the level is cut off at its end. Returns what was taken out. The cursor stays on its item, or
moves to `start` if that item was taken out. -/
def splice (c : Cursor α) (start count : Nat) (insert : List α) : List α × Cursor α :=
  let start := min start c.level.length
  let stop := min (start + count) c.level.length
  let taken := (c.level.drop start).take (stop - start)
  let level := c.level.take start ++ insert ++ c.level.drop stop
  if !c.removed && start ≤ c.index && c.index < stop then
    (taken, { c with level, index := start, removed := true })
  else if stop ≤ c.index then
    (taken, { c with level, index := c.index + insert.length - taken.length })
  else
    (taken, { c with level })

/-- Puts an item directly after the current place. -/
def insertAfter (c : Cursor α) (x : α) : Cursor α := (c.splice (c.index + 1) 0 [x]).2

/-- Takes the current item out, if it is still there. -/
def remove (c : Cursor α) : Option α × Cursor α :=
  if c.removed then (none, c)
  else
    let (taken, c) := c.splice c.index 1 []
    (taken.head?, c)

/-- Edits the item at a place of the level; nothing happens if there is none. -/
def editAt (c : Cursor α) (index : Nat) (f : α → α) : Cursor α :=
  { c with level := c.level.modify index f }

/-- Edits the current item, if it is still there. -/
def edit (c : Cursor α) (f : α → α) : Cursor α := if c.removed then c else c.editAt c.index f

/-- Puts another item in the place of the current one, if it is still there. -/
def replace (c : Cursor α) (x : α) : Option α × Cursor α := (c.current?, c.edit fun _ => x)

/-! ## Actions -/

inductive Action (α : Type u) where
  | peek (offset : Int)
  | replace (x : α)
  | splice (start count : Nat) (insert : List α)
  | insertAfter (x : α)
  | remove
  /-- Lets the walk go on at a place of the visitor's choice. -/
  | resume (index : Nat)
  | edit (f : α → α)
  | editAt (index : Nat) (f : α → α)

/-- What a visitor learns from a step. -/
inductive Outcome (α : Type u) where
  | nothing
  /-- An item that was looked at. -/
  | seen (x? : Option α)
  /-- An item that was taken out of the level. -/
  | taken (x? : Option α)
  /-- The items that were taken out of the level. -/
  | cut (xs : List α)
  /-- Whether there was an item to edit. -/
  | edited (done : Bool)

def perform (c : Cursor α) : Action α → Outcome α × Cursor α
  | .peek offset => (.seen (c.peek offset), c)
  | .replace x =>
    let (old, c) := c.replace x
    (.taken old, c)
  | .splice start count insert =>
    let (old, c) := c.splice start count insert
    (.cut old, c)
  | .insertAfter x => (.nothing, c.insertAfter x)
  | .remove =>
    let (old, c) := c.remove
    (.taken old, c)
  | .resume index => (.nothing, { c with resume? := some index })
  | .edit f => (.edited c.current?.isSome, c.edit f)
  | .editAt index f => (.edited c.level[index]?.isSome, c.editAt index f)

def performAll (c : Cursor α) : List (Action α) → List (Outcome α) × Cursor α
  | [] => ([], c)
  | a :: actions =>
    let (outcome, c) := c.perform a
    let (outcomes, c) := performAll c actions
    (outcome :: outcomes, c)

end Cursor

end MarkdownPreview
