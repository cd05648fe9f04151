import MarkdownPreview.Proofs.Checked.Cursor
import MarkdownPreview.Proofs.Walk.Splice

/-!
# A cursor stays on its item

A cursor finds its item by a number, which every splice has to bring up to date. What it should
find is said here without numbers: the level is written down with a mark on the item being visited
(`marked`), and the actions of a visitor are done to that list (`Action.onMarked`), where what
happens to the item is what happens to the mark. A cursor `Tracks` such a list if the two agree.

Each action that does not take the item out keeps them in agreement (`Tracks.perform`), and once one
has taken it out, it is gone for good (`removed_performAll`). `performAll_tracks` says both of whole
visits, and that no place is ever out of range.
-/

set_option autoImplicit false

namespace MarkdownPreview.Cursor

variable {α : Type} {c : Cursor α} {ms : List (Bool × α)}

/-! ## The level with its item marked -/

/-- Items that are not being visited. -/
def unmarked (xs : List α) : List (Bool × α) := xs.map (Prod.mk false)

/-- A level with a mark on the item that is being visited. -/
def marked (before : List α) (x : α) (after : List α) : List (Bool × α) :=
  unmarked before ++ (true, x) :: unmarked after

/-- What an action does to a level whose item is marked. -/
def Action.onMarked : Action α → List (Bool × α) → List (Bool × α)
  | .peek _, ms | .resume _, ms => ms
  | .replace y, ms => ms.map fun m => if m.1 then (true, y) else m
  | .edit f, ms => ms.map fun m => if m.1 then (true, f m.2) else m
  | .editAt i f, ms => ms.modify i fun m => (m.1, f m.2)
  | .insertAfter y, ms => ms.flatMap fun m => if m.1 then [m, (false, y)] else [m]
  | .splice start count insert, ms => ms.take start ++ unmarked insert ++ ms.drop (start + count)
  | .remove, ms => ms.filter fun m => !m.1

def Action.allOnMarked (actions : List (Action α)) (ms : List (Bool × α)) : List (Bool × α) :=
  actions.foldl (fun ms a => a.onMarked ms) ms

/-- Whether an action takes the marked item of a level out, as a splice does whose range it is
in. -/
def Action.covers (ms : List (Bool × α)) : Action α → Bool
  | .splice start count _ => ((ms.drop start).take count).any Prod.fst
  | .remove => true
  | _ => false

/-- Whether no action of a visit takes the marked item out. -/
def spares : List (Action α) → List (Bool × α) → Bool
  | [], _ => true
  | a :: actions, ms => !a.covers ms && spares actions (a.onMarked ms)

/-- A cursor is on the marked item of a level: the mark is on one item only, the place of the cursor
is the place of that item, and the level is the same without the mark. -/
def Tracks (c : Cursor α) (ms : List (Bool × α)) : Prop :=
  ∃ before x after, ms = marked before x after ∧ c.level = before ++ x :: after
    ∧ c.index = before.length ∧ c.current? = some x

variable {before after : List α} {x : α}

@[simp] theorem length_unmarked (xs : List α) : (unmarked xs).length = xs.length :=
  List.length_map _

theorem unmarked_append (xs ys : List α) : unmarked (xs ++ ys) = unmarked xs ++ unmarked ys :=
  List.map_append

theorem unmarked_take (n : Nat) (xs : List α) : unmarked (xs.take n) = (unmarked xs).take n :=
  List.map_take

theorem unmarked_drop (n : Nat) (xs : List α) : unmarked (xs.drop n) = (unmarked xs).drop n :=
  List.map_drop

@[simp] theorem length_marked (before : List α) (x : α) (after : List α) :
    (marked before x after).length = before.length + (after.length + 1) := by
  simp [marked]

/-- The mark is on one item only. -/
theorem place_of_mark {y : α} {k : Nat} (h : (marked before x after)[k]? = some (true, y)) :
    k = before.length := by
  rw [marked, List.getElem?_append] at h
  split at h
  · simp [unmarked] at h
  · rename_i hk
    rw [length_unmarked] at h hk
    cases hn : k - before.length with
    | zero => omega
    | succ n => simp [hn, unmarked] at h

theorem getElem?_marked (before : List α) (x : α) (after : List α) :
    (marked before x after)[before.length]? = some (true, x) := by
  simp [marked]

theorem covers_splice_iff {start count : Nat} {insert : List α} :
    (Action.splice start count insert).covers (marked before x after) = true
      ↔ start ≤ before.length ∧ before.length < start + count := by
  rw [Action.covers, List.any_eq_true]
  constructor
  · rintro ⟨⟨m, y⟩, hmem, hm⟩
    obtain ⟨k, hk⟩ := List.mem_iff_getElem?.mp hmem
    rw [List.getElem?_take] at hk
    split at hk
    · rw [List.getElem?_drop, show m = true from hm] at hk
      have hplace := place_of_mark hk
      omega
    · cases hk
  · rintro ⟨hlo, hhi⟩
    refine ⟨(true, x), List.mem_iff_getElem?.mpr ⟨before.length - start, ?_⟩, rfl⟩
    have hplace : start + (before.length - start) = before.length := by omega
    rw [List.getElem?_take, if_pos (by omega), List.getElem?_drop, hplace, getElem?_marked]

/-- What is done to the marked item alone. -/
theorem map_marked (f : α → α) :
    (marked before x after).map (fun m => if m.1 then (true, f m.2) else m)
      = marked before (f x) after := by
  have hrest (xs : List α) :
      (unmarked xs).map (fun m => if m.1 then (true, f m.2) else m) = unmarked xs := by
    simp [unmarked]
  rw [marked, List.map_append, List.map_cons, hrest, hrest]
  rfl

theorem flatMap_marked (y : α) :
    (marked before x after).flatMap (fun m => if m.1 then [m, (false, y)] else [m])
      = marked before x (y :: after) := by
  have hrest (xs : List α) :
      (unmarked xs).flatMap (fun m => if m.1 then [m, (false, y)] else [m]) = unmarked xs := by
    rw [unmarked, List.flatMap_map, List.map_eq_flatMap]
    rfl
  rw [marked, List.flatMap_append, List.flatMap_cons, hrest, hrest]
  rfl

/-- An edit at any place leaves the marked item where it is. -/
theorem exists_modify_marked (i : Nat) (f : α → α) : ∀ (before : List α) (x : α) (after : List α),
    ∃ before' x' after', before'.length = before.length
      ∧ (before ++ x :: after).modify i f = before' ++ x' :: after'
      ∧ (marked before x after).modify i (fun m => (m.1, f m.2)) = marked before' x' after' := by
  have hrest (xs : List α) (k : Nat) :
      (unmarked xs).modify k (fun m => (m.1, f m.2)) = unmarked (xs.modify k f) := by
    induction xs generalizing k with
    | nil => rw [List.modify_nil]; exact List.modify_nil _ k
    | cons y ys ih =>
      cases k with
      | zero => rfl
      | succ k => exact congrArg (List.cons (false, y)) (ih k)
  intro before
  induction before generalizing i with
  | nil =>
    intro x after
    cases i with
    | zero => exact ⟨[], f x, after, rfl, rfl, rfl⟩
    | succ k => exact ⟨[], x, after.modify k f, rfl, rfl, congrArg (List.cons (true, x)) (hrest _ k)⟩
  | cons b before ih =>
    intro x after
    cases i with
    | zero => exact ⟨f b :: before, x, after, rfl, rfl, rfl⟩
    | succ k =>
      obtain ⟨before', x', after', hlen, hlevel, hmarked⟩ := ih k x after
      exact ⟨b :: before', x', after', congrArg Nat.succ hlen, congrArg (List.cons b) hlevel,
        congrArg (List.cons (false, b)) hmarked⟩

/-- A range that ends before the marked item … -/
theorem exchange_before {start count : Nat} (insert : List α) (h : start + count ≤ before.length) :
    (marked before x after).take start ++ unmarked insert
        ++ (marked before x after).drop (start + count)
      = marked (before.take start ++ insert ++ before.drop (start + count)) x after := by
  have hlo : start ≤ (unmarked before).length := by rw [length_unmarked]; omega
  have hhi : start + count ≤ (unmarked before).length := by rwa [length_unmarked]
  rw [marked, List.take_append_of_le_length hlo, List.drop_append_of_le_length hhi, marked,
    unmarked_append, unmarked_append, unmarked_take, unmarked_drop]
  simp

/-- … and one that starts after it. -/
theorem exchange_after (n count : Nat) (insert : List α) :
    (marked before x after).take (before.length + (n + 1)) ++ unmarked insert
        ++ (marked before x after).drop (before.length + (n + 1) + count)
      = marked before x (after.take n ++ insert ++ after.drop (n + count)) := by
  have hn : before.length + (n + 1) + count = before.length + (n + count + 1) := by omega
  have htake : (marked before x after).take (before.length + (n + 1))
      = unmarked before ++ (true, x) :: unmarked (after.take n) := by
    rw [marked, ← length_unmarked before, List.take_length_add_append, List.take_succ_cons,
      ← unmarked_take]
  have hdrop : (marked before x after).drop (before.length + (n + count + 1))
      = unmarked (after.drop (n + count)) := by
    rw [marked, ← length_unmarked before, List.drop_length_add_append, List.drop_succ_cons,
      ← unmarked_drop]
  rw [hn, htake, hdrop, marked, unmarked_append, unmarked_append]
  simp

/-! ## One action -/

theorem removed_eq_false (h : c.current? = some x) : c.removed = false := by
  rw [current?] at h
  split at h
  · cases h
  · rename_i hr
    exact Bool.eq_false_iff.mpr hr

theorem current?_of_removed (h : c.removed = true) : c.current? = none := if_pos h

namespace Tracks

/-- A cursor whose item has not been taken out is on the item at its place. -/
theorem of_place (hl : c.level = before ++ x :: after) (hi : c.index = before.length)
    (hr : c.removed = false) : Tracks c (marked before x after) := by
  refine ⟨before, x, after, rfl, hl, hi, ?_⟩
  rw [current?, hr, hl, hi]
  simp

theorem splice (h : Tracks c ms) {start count : Nat} {insert : List α}
    (hc : (Action.splice start count insert).covers ms = false) :
    Tracks (c.splice start count insert).2 ((Action.splice start count insert).onMarked ms) := by
  obtain ⟨before, x, after, rfl, hl, hi, hx⟩ := h
  have hr := removed_eq_false hx
  have hlt : c.index < c.level.length := by simp [hl, hi]
  rw [← Bool.not_eq_true, covers_splice_iff, ← hi] at hc
  rw [Action.onMarked]
  by_cases hlo : start ≤ c.index
  · have hhi : start + count ≤ c.index := by omega
    obtain ⟨hindex, hremoved⟩ := splice_before insert (Nat.le_of_lt hlt) hhi
    rw [exchange_before insert (hi ▸ hhi)]
    refine of_place ?_ ?_ (hremoved.trans hr)
    · have hlo' : start ≤ before.length := hi ▸ hlo
      have hhi' : start + count ≤ before.length := hi ▸ hhi
      rw [level_splice, hl, List.take_append_of_le_length hlo', List.drop_append_of_le_length hhi']
      simp
    · rw [hindex, hi]
      simp only [List.length_append, List.length_take, List.length_drop]
      omega
  · have hgt : c.index < start := by omega
    obtain ⟨hindex, hremoved⟩ := splice_after count insert hlt hgt
    obtain ⟨n, rfl⟩ : ∃ n, start = before.length + (n + 1) := ⟨start - (c.index + 1), by omega⟩
    have hn : before.length + (n + 1) + count = before.length + (n + count + 1) := by omega
    rw [exchange_after]
    refine of_place ?_ (hindex.trans hi) (hremoved.trans hr)
    rw [level_splice, hl, List.take_length_add_append, hn, List.drop_length_add_append]
    simp

theorem edit (h : Tracks c ms) (f : α → α) :
    Tracks (c.edit f) (ms.map fun m => if m.1 then (true, f m.2) else m) := by
  obtain ⟨before, x, after, rfl, hl, hi, hx⟩ := h
  have hr := removed_eq_false hx
  have hedit : c.edit f = c.editAt c.index f := if_neg (by simp [hr])
  have hmodify : (before ++ x :: after).modify before.length f = before ++ f x :: after := by
    simp [List.modify_eq_take_cons_drop]
  rw [map_marked, hedit]
  refine of_place ?_ hi hr
  rw [editAt, hl, hi, hmodify]

theorem editAt (h : Tracks c ms) (i : Nat) (f : α → α) :
    Tracks (c.editAt i f) (ms.modify i fun m => (m.1, f m.2)) := by
  obtain ⟨before, x, after, rfl, hl, hi, hx⟩ := h
  have hr := removed_eq_false hx
  obtain ⟨before', x', after', hlen, hlevel, hmarked⟩ := exists_modify_marked i f before x after
  rw [hmarked]
  exact of_place (by rw [Cursor.editAt, hl, hlevel]) (hi.trans hlen.symm) hr

theorem insertAfter (h : Tracks c ms) (y : α) :
    Tracks (c.insertAfter y) (ms.flatMap fun m => if m.1 then [m, (false, y)] else [m]) := by
  obtain ⟨before, x, after, rfl, hl, hi, hx⟩ := h
  have hr := removed_eq_false hx
  have hlt : c.index < c.level.length := by simp [hl, hi]
  obtain ⟨hindex, hremoved⟩ :=
    splice_after 0 [y] hlt (Nat.lt_succ_self c.index)
  rw [flatMap_marked]
  refine of_place ?_ (hindex.trans hi) (hremoved.trans hr)
  rw [Cursor.insertAfter, level_splice, hl, hi, Nat.add_zero, List.take_length_add_append,
    List.drop_length_add_append]
  simp

/-- **An action that does not take the item out leaves the cursor on it.** -/
theorem perform (h : Tracks c ms) {a : Action α} (ha : a.covers ms = false) :
    Tracks (c.perform a).2 (a.onMarked ms) := by
  cases a with
  | peek _ | resume _ => exact h
  | replace y => exact h.edit fun _ => y
  | edit f => exact h.edit f
  | editAt i f => exact h.editAt i f
  | splice start count insert => exact h.splice ha
  | remove => cases ha
  | insertAfter y => exact h.insertAfter y

end Tracks

/-- An action that takes the item out takes it out. -/
theorem removed_of_covers (h : Tracks c ms) {a : Action α} (ha : a.covers ms = true) :
    (c.perform a).2.removed = true := by
  obtain ⟨before, x, after, rfl, hl, hi, hx⟩ := h
  have hr := removed_eq_false hx
  have hlt : c.index < c.level.length := by simp [hl, hi]
  cases a with
  | splice start count insert =>
    rw [covers_splice_iff, ← hi] at ha
    exact (splice_covering hr hlt ha.1 ha.2).2
  | remove =>
    have hremove : (c.perform .remove).2 = (c.splice c.index 1 []).2 := by
      simp [Cursor.perform, Cursor.remove, hr]
    rw [hremove]
    exact (splice_covering hr hlt (Nat.le_refl _) (Nat.lt_succ_self _)).2
  | peek _ | resume _ | replace _ | edit _ | editAt _ _ | insertAfter _ => cases ha

theorem removed_perform (hr : c.removed = true) (a : Action α) :
    (c.perform a).2.removed = true := by
  cases a with
  | splice start count insert => exact removed_splice hr
  | insertAfter y => exact removed_splice hr
  | remove => simp [perform, remove, hr]
  | replace _ | edit _ => simp [perform, replace, edit, hr]
  | peek _ | resume _ | editAt _ _ => exact hr

/-! ## A whole visit -/

theorem performAll_cons (c : Cursor α) (a : Action α) (actions : List (Action α)) :
    (c.performAll (a :: actions)).2 = ((c.perform a).2.performAll actions).2 := rfl

theorem performAll_append (c : Cursor α) (actions rest : List (Action α)) :
    (c.performAll (actions ++ rest)).2 = ((c.performAll actions).2.performAll rest).2 := by
  induction actions generalizing c with
  | nil => rfl
  | cons a actions ih => exact ih (c.perform a).2

theorem removed_performAll (hr : c.removed = true) (actions : List (Action α)) :
    (c.performAll actions).2.removed = true := by
  induction actions generalizing c with
  | nil => exact hr
  | cons a actions ih => exact ih (removed_perform hr a)

theorem Tracks.performAll (h : Tracks c ms) {actions : List (Action α)}
    (ha : spares actions ms = true) :
    Tracks (c.performAll actions).2 (Action.allOnMarked actions ms) := by
  induction actions generalizing c ms with
  | nil => exact h
  | cons a actions ih =>
    rw [spares, Bool.and_eq_true, Bool.not_eq_true'] at ha
    exact ih (h.perform ha.1) ha.2

/-- **A cursor keeps track of its item.** Whatever a visitor does, no place is out of range. As long
as the item is not taken out, the cursor is on the marked item of the level, to which the same has
been done; and after the action that takes it out there is no current item any more. -/
theorem performAll_tracks (before : List α) (x : α) (after : List α) :
    let c : Cursor α := { level := before ++ x :: after, index := before.length }
    let ms := marked before x after
    (∀ actions, c.performAll? actions = some (c.performAll actions))
      ∧ (∀ actions, spares actions ms = true →
          Tracks (c.performAll actions).2 (Action.allOnMarked actions ms))
      ∧ ∀ actions a rest, spares actions ms = true →
          a.covers (Action.allOnMarked actions ms) = true →
          (c.performAll (actions ++ a :: rest)).2.current? = none := by
  intro c ms
  have htracks : Tracks c ms := Tracks.of_place rfl rfl rfl
  refine ⟨performAll?_eq c, fun actions hs => htracks.performAll hs, ?_⟩
  intro actions a rest hs ha
  have hgone := removed_of_covers (htracks.performAll hs) ha
  rw [performAll_append, performAll_cons]
  exact current?_of_removed (removed_performAll hgone rest)

/-- Splices on both sides of an item that is edited between them, and one that ends right before
it; then one that takes it out. -/
theorem performAll_tracks_amid :
    let c : Cursor Nat := { level := [0, 1, 2, 3, 4], index := 2 }
    let actions : List (Cursor.Action Nat) :=
      [.splice 0 2 [7, 8, 9], .edit (· + 40), .insertAfter 6, .splice 4 9 [5], .editAt 3 (· + 100)]
    let ms := marked [0, 1] 2 [3, 4]
    spares actions ms = true
      ∧ Action.allOnMarked actions ms = [(false, 7), (false, 8), (false, 9), (true, 142), (false, 5)]
      ∧ Tracks (c.performAll actions).2 (Action.allOnMarked actions ms)
      ∧ (Action.splice 1 3 [0]).covers (Action.allOnMarked actions ms) = true
      ∧ (c.performAll (actions ++ [.splice 1 3 [0], .replace 1])).2.current? = none := by
  intro c actions ms
  obtain ⟨-, htracks, hgone⟩ := performAll_tracks [0, 1] 2 [3, 4]
  have hspares : spares actions ms = true := by decide
  have hcovers : (Action.splice 1 3 [0]).covers (Action.allOnMarked actions ms) = true := by decide
  exact ⟨hspares, by decide, htracks actions hspares, hcovers,
    hgone actions _ [.replace 1] hspares hcovers⟩

end MarkdownPreview.Cursor
