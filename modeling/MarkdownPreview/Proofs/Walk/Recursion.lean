import Mathlib.Order.WellFounded
import MarkdownPreview.Proofs.Tree.Depth
import MarkdownPreview.Walk.Basic

/-!
# A walk as a recursion over the tree

The loop of a walk finds its way by numbers: a place, the cursor's place after the visit, and the
place to go on from, each of which may be out of range. If the visitor only looks around, edits the
token it visits or puts another in its place (`Visitor.IsLocal`), none of this can be seen: the walk
is the recursion one would write over the tree (`topDown`). The tokens of a level are taken one by
one from a list of those to come, in the order of the walk, and each is put with those that are done
once its own level is.

The simulation is that of one round of the loop (`walkOn_cons`): the place stands for the cut between
what is done and what is to come. What a visitor puts below the token it visits is visited next, so
such a walk need not end (`walk_putInside_endless`). A walk that descends for ever is one whose
recursion has no result for any number of levels, so the two also agree on what does not end.
-/

set_option autoImplicit false

namespace MarkdownPreview

universe u

variable {σ : Type u}

/-! ## Visitors that stay on their token -/

/-- Whether an action looks at a token, edits the current one, or puts another in its place. -/
def Cursor.Action.isLocal : Cursor.Action Token → Bool
  | .peek _ | .replace _ | .edit _ => true
  | _ => false

/-- A visitor that only looks around and changes the token it visits. What it does may depend on all
it has seen. -/
def Visitor.IsLocal (v : Visitor σ) : Prop :=
  ∀ s c, ∃ actions : List (Cursor.Action Token),
    actions.all Cursor.Action.isLocal = true ∧ (v s c).2 = (c.performAll actions).2

/-- The state of a visitor bounds how often it can still leave a token deeper than it has found
it. -/
def Visitor.DeepensWithin {β : Type} [Preorder β] (v : Visitor σ) (budget : σ → β) : Prop :=
  ∀ s c t u, c.current? = some t → (v s c).2.current? = some u →
    budget (v s c).1 < budget s ∨ budget (v s c).1 ≤ budget s ∧ u.depth ≤ t.depth

/-- The visitor with a log of its visits, newest first: the token it has found and the one it has
left. -/
def Visitor.logged (v : Visitor σ) : Visitor (σ × List (Option Token × Option Token)) :=
  fun s c => (((v s.1 c).1, (c.current?, (v s.1 c).2.current?) :: s.2), (v s.1 c).2)

/-! ## The recursion -/

namespace Direction

/-- The tokens of a level in the order of a walk. -/
def order : Direction → List Token → List Token
  | .forward, ts => ts
  | .backward, ts => ts.reverse

/-- The level of which the tokens in `done` have been visited, the last of them first, and those in
`todo` are to come, with its cursor on the first of these. -/
def cursor : Direction → (done todo : List Token) → Cursor Token
  | .forward, done, todo => { level := done.reverse ++ todo, index := done.length }
  | .backward, done, todo => { level := todo.reverse ++ done, index := todo.length - 1 }

/-- What a visit to a token leaves in its place, with the state after it. -/
def visited (d : Direction) (v : Visitor σ) (s : σ) (done : List Token) (t : Token)
    (todo : List Token) : σ × Token :=
  ((v s (d.cursor done (t :: todo))).1, (v s (d.cursor done (t :: todo))).2.current?.getD t)

end Direction

/-- The token with something done to the level below it, if there is one. -/
def onInner (f : σ → List Token → Option (σ × List Token)) (s : σ) (t : Token) :
    Option (σ × Token) :=
  match t.children with
  | none => some (s, t)
  | some ts => (f s ts).map fun r => (r.1, { t with children := some r.2 })

/-- Visits the tokens to come one after the other, and what is below each of them before the
next. -/
def topDownFrom (d : Direction) (v : Visitor σ) (descend : σ → List Token → Option (σ × List Token)) :
    σ → (done todo : List Token) → Option (σ × List Token)
  | s, done, [] => some (s, (d.cursor done []).level)
  | s, done, t :: todo =>
    (onInner descend (d.visited v s done t todo).1 (d.visited v s done t todo).2).bind fun r =>
      topDownFrom d v descend r.1 (r.2 :: done) todo

/-- Visits a tree from the top down; there is no result if it turns out to have more than `levels`
levels. -/
def topDown (d : Direction) (v : Visitor σ) : (levels : Nat) → σ → List Token → Option (σ × List Token)
  | 0, _, _ => none
  | levels + 1, s, ts => topDownFrom d v (topDown d v levels) s [] (d.order ts)

/-- Whether a log is that of a visit to all tokens to come: each finds the token whose turn it is,
and before the next of them it is the turn of what is below the token it leaves. -/
def Follows (d : Direction) : List Token → List (Option Token × Option Token) → Prop
  | todo, [] => todo = []
  | todo, (found, left) :: log => ∃ t u rest, todo = t :: rest ∧ found = some t ∧ left = some u
      ∧ Follows d (d.order u.inner ++ rest) log

/-! ## A visit changes one token -/

/-- A cursor on an item of a level. -/
def Cursor.amid {α : Type u} (before : List α) (x : α) (after : List α) : Cursor α :=
  { level := before ++ x :: after, index := before.length }

theorem Cursor.current?_amid {α : Type u} (before : List α) (x : α) (after : List α) :
    (amid before x after).current? = some x := by
  simp [amid, current?]

theorem Cursor.edit_amid {α : Type u} (f : α → α) (before : List α) (x : α) (after : List α) :
    (amid before x after).edit f = amid before (f x) after := by
  simp [amid, edit, editAt, List.modify_eq_take_cons_drop]

/-- Local actions come down to putting a token in the place of the current one. -/
theorem Cursor.performAll_amid {actions : List (Cursor.Action Token)}
    (ha : actions.all Action.isLocal = true) (before : List Token) (t : Token)
    (after : List Token) :
    ∃ u, ((amid before t after).performAll actions).2 = amid before u after := by
  induction actions generalizing t with
  | nil => exact ⟨t, rfl⟩
  | cons a actions ih =>
    rw [List.all_cons, Bool.and_eq_true] at ha
    obtain ⟨u, hu⟩ : ∃ u, ((amid before t after).perform a).2 = amid before u after := by
      cases a with
      | peek _ => exact ⟨t, rfl⟩
      | replace x => exact ⟨x, edit_amid _ before t after⟩
      | edit f => exact ⟨f t, edit_amid f before t after⟩
      | splice _ _ _ | insertAfter _ | remove | resume _ | editAt _ _ => cases ha.1
    obtain ⟨w, hw⟩ := ih ha.2 u
    refine ⟨w, ?_⟩
    rw [← hw, ← hu]
    rfl

namespace Direction

theorem cursor_cons (d : Direction) (done todo : List Token) :
    ∃ before after, ∀ t, d.cursor done (t :: todo) = Cursor.amid before t after := by
  cases d with
  | forward => exact ⟨done.reverse, todo, fun t => by simp [cursor, Cursor.amid]⟩
  | backward => exact ⟨todo.reverse, done, fun t => by simp [cursor, Cursor.amid]⟩

theorem current?_cursor (d : Direction) (done : List Token) (t : Token) (todo : List Token) :
    (d.cursor done (t :: todo)).current? = some t := by
  obtain ⟨before, after, h⟩ := d.cursor_cons done todo
  rw [h, Cursor.current?_amid]

/-- After a visit the cursor is where it was, on the token that the visitor has left. -/
theorem visit_eq {v : Visitor σ} (hv : v.IsLocal) (d : Direction) (s : σ) (done : List Token)
    (t : Token) (todo : List Token) :
    v s (d.cursor done (t :: todo)) = ((d.visited v s done t todo).1,
      d.cursor done ((d.visited v s done t todo).2 :: todo)) := by
  obtain ⟨before, after, h⟩ := d.cursor_cons done todo
  obtain ⟨actions, ha, hv⟩ := hv s (d.cursor done (t :: todo))
  obtain ⟨u, hu⟩ := Cursor.performAll_amid ha before t after
  rw [h t, hu] at hv
  have hleft : (d.visited v s done t todo).2 = u := by
    rw [visited, h t, hv, Cursor.current?_amid]
    rfl
  rw [hleft, h u, ← hv, visited, h t]

end Direction

/-! ## One round of the loop -/

/-- The place of a walk whose cursor is between the tokens it has visited and those to come. -/
def Direction.place? : Direction → (done todo : List Token) → Option Nat
  | .forward, done, _ => some done.length
  | .backward, _, todo => if todo.isEmpty then none else some (todo.length - 1)

theorem Direction.next?_cursor (d : Direction) (done : List Token) (t : Token) (todo : List Token) :
    (d.cursor done (t :: todo)).next? d = d.place? (t :: done) todo := by
  cases d with
  | forward => rfl
  | backward => cases todo <;> simp [cursor, place?, Cursor.next?]

theorem Direction.first?_eq (d : Direction) (ts : List Token) :
    d.first? ts = d.place? [] (d.order ts) := by
  cases d with
  | forward => rfl
  | backward => simp [first?, place?, order, lastPlace?]

theorem Direction.level_order (d : Direction) (ts : List Token) :
    (d.cursor [] (d.order ts)).level = ts := by
  cases d <;> simp [cursor, order]

/-- The walk of a level from the cut between what is done and what is to come. -/
def walkOn (d : Direction) (v : Visitor σ) (steps : Nat) (s : σ) (done todo : List Token) :
    Option (σ × List Token) :=
  walkFrom d v steps s (d.place? done todo) (d.cursor done todo).level

theorem walk_eq_walkOn (d : Direction) (v : Visitor σ) (steps : Nat) (s : σ) (ts : List Token) :
    walk d v steps s ts = walkOn d v steps s [] (d.order ts) := by
  rw [walk, walkOn, d.first?_eq, d.level_order]

theorem walkOn_nil (d : Direction) (v : Visitor σ) (steps : Nat) (s : σ) (done : List Token) :
    walkOn d v (steps + 1) s done [] = some (s, (d.cursor done []).level) := by
  cases d with
  | forward => simp [walkOn, Direction.place?, Direction.cursor, walkFrom]
  | backward => simp [walkOn, Direction.place?, Direction.cursor, walkFrom]

theorem Direction.level_cursor_cons (d : Direction) (done : List Token) (t : Token)
    (todo : List Token) :
    (d.cursor done (t :: todo)).level = (d.cursor (t :: done) todo).level := by
  cases d <;> simp [cursor]

theorem Direction.modify_cursor (d : Direction) (done : List Token) (t : Token)
    (todo : List Token) (f : Token → Token) :
    (d.cursor done (t :: todo)).level.modify (d.cursor done (t :: todo)).index f
      = (d.cursor (f t :: done) todo).level := by
  obtain ⟨before, after, h⟩ := d.cursor_cons done todo
  have hedit := Cursor.edit_amid f before t after
  rw [← d.level_cursor_cons, h t, h (f t), ← hedit]
  rfl

theorem Direction.place?_cons (d : Direction) (t u : Token) (done todo : List Token) :
    d.place? (t :: done) todo = d.place? (u :: done) todo := by
  cases d <;> rfl

/-- **One round of the loop** visits the first token to come and what is below it, and goes on
behind it. -/
theorem walkOn_cons {v : Visitor σ} (hv : v.IsLocal) (d : Direction) (steps : Nat) (s : σ)
    (done : List Token) (t : Token) (todo : List Token) :
    walkOn d v (steps + 1) s done (t :: todo)
      = (onInner (walk d v steps) (d.visited v s done t todo).1 (d.visited v s done t todo).2).bind
          fun r => walkOn d v steps r.1 (r.2 :: done) todo := by
  have hplace : d.place? done (t :: todo) = some (d.cursor done (t :: todo)).index := by
    cases d <;> rfl
  have hlt : (d.cursor done (t :: todo)).index < (d.cursor done (t :: todo)).level.length := by
    cases d <;> simp [Direction.cursor]
  have hcursor : ({ level := (d.cursor done (t :: todo)).level
                    index := (d.cursor done (t :: todo)).index } : Cursor Token)
      = d.cursor done (t :: todo) := by cases d <;> rfl
  rw [walkOn, hplace]
  unfold walkFrom
  rw [if_pos hlt, hcursor, d.visit_eq hv]
  dsimp only
  rw [d.current?_cursor, Option.bind_some, d.next?_cursor, onInner]
  cases (d.visited v s done t todo).2.children with
  | none =>
    dsimp only
    rw [d.level_cursor_cons]
    rfl
  | some ts =>
    have hwalk : walkFrom d v steps (d.visited v s done t todo).1 (d.first? ts) ts
        = walk d v steps (d.visited v s done t todo).1 ts := rfl
    dsimp only
    rw [hwalk]
    cases walk d v steps (d.visited v s done t todo).1 ts with
    | none => rfl
    | some r =>
      dsimp only [Option.map_some, Option.bind_some]
      rw [d.modify_cursor, d.place?_cons]
      rfl

/-! ## The walk and the recursion -/

theorem onInner_eq_some_iff {f : σ → List Token → Option (σ × List Token)} {s : σ} {t : Token}
    {r : σ × Token} : onInner f s t = some r ↔
      t.children = none ∧ r = (s, t) ∨ ∃ ts p, t.children = some ts ∧ f s ts = some p
        ∧ r = (p.1, { t with children := some p.2 }) := by
  unfold onInner
  cases t.children with
  | none => simp [eq_comm]
  | some ts => simp [eq_comm]

theorem onInner_mono {f g : σ → List Token → Option (σ × List Token)} {s : σ} {t : Token}
    {r : σ × Token} (h : ∀ ts p, t.children = some ts → f s ts = some p → g s ts = some p)
    (hf : onInner f s t = some r) : onInner g s t = some r := by
  rw [onInner_eq_some_iff] at hf ⊢
  obtain hnone | ⟨ts, p, hts, hp, hr⟩ := hf
  · exact .inl hnone
  · exact .inr ⟨ts, p, hts, h ts p hts hp, hr⟩

theorem topDownFrom_mono {d : Direction} {v : Visitor σ}
    {f g : σ → List Token → Option (σ × List Token)}
    (h : ∀ s ts r, f s ts = some r → g s ts = some r) {s : σ} {done todo : List Token}
    {r : σ × List Token} (hf : topDownFrom d v f s done todo = some r) :
    topDownFrom d v g s done todo = some r := by
  induction todo generalizing s done with
  | nil => exact hf
  | cons t todo ih =>
    rw [topDownFrom, Option.bind_eq_some_iff] at hf ⊢
    obtain ⟨p, hp, hrest⟩ := hf
    exact ⟨p, onInner_mono (fun ts q _ => h _ ts q) hp, ih hrest⟩

theorem topDown_succ {d : Direction} {v : Visitor σ} {levels : Nat} {s : σ} {ts : List Token}
    {r : σ × List Token} (h : topDown d v levels s ts = some r) :
    topDown d v (levels + 1) s ts = some r := by
  induction levels generalizing s ts r with
  | zero => cases h
  | succ levels ih => exact topDownFrom_mono (fun _ _ _ => ih) h

/-- A result does not change if more levels are allowed. -/
theorem topDown_mono {d : Direction} {v : Visitor σ} {levels levels' : Nat} (hle : levels ≤ levels')
    {s : σ} {ts : List Token} {r : σ × List Token} (h : topDown d v levels s ts = some r) :
    topDown d v levels' s ts = some r := by
  induction hle with
  | refl => exact h
  | step _ ih => exact topDown_succ ih

theorem topDownFrom_le {d : Direction} {v : Visitor σ} {levels levels' : Nat}
    (hle : levels ≤ levels') {s : σ} {done todo : List Token} {r : σ × List Token}
    (h : topDownFrom d v (topDown d v levels) s done todo = some r) :
    topDownFrom d v (topDown d v levels') s done todo = some r :=
  topDownFrom_mono (fun _ _ _ => topDown_mono hle) h

section

variable {v : Visitor σ} (hv : v.IsLocal) (d : Direction)

include hv

/-- A walk that comes to its end has followed the recursion. -/
theorem topDownFrom_of_walkOn {steps : Nat} {s : σ} {done todo : List Token} {r : σ × List Token}
    (h : walkOn d v steps s done todo = some r) :
    ∃ levels, topDownFrom d v (topDown d v levels) s done todo = some r := by
  induction steps generalizing s done todo r with
  | zero =>
    -- without a step left, only the empty rest of a backward walk is at its end
    cases d with
    | forward => simp [walkOn, Direction.place?, walkFrom] at h
    | backward =>
      cases todo with
      | nil => exact ⟨0, by simpa [walkOn, Direction.place?, walkFrom, topDownFrom] using h⟩
      | cons t todo => simp [walkOn, Direction.place?, walkFrom] at h
  | succ steps ih =>
    cases todo with
    | nil => exact ⟨0, by rw [← h, walkOn_nil, topDownFrom]⟩
    | cons t todo =>
      rw [walkOn_cons hv, Option.bind_eq_some_iff] at h
      obtain ⟨p, hp, hrest⟩ := h
      obtain ⟨inner, hinner⟩ : ∃ levels, onInner (topDown d v levels)
          (d.visited v s done t todo).1 (d.visited v s done t todo).2 = some p := by
        obtain ⟨hts, rfl⟩ | ⟨ts, q, hts, hq, rfl⟩ := onInner_eq_some_iff.mp hp
        · exact ⟨0, onInner_eq_some_iff.mpr (.inl ⟨hts, rfl⟩)⟩
        · rw [walk_eq_walkOn] at hq
          obtain ⟨levels, hlevels⟩ := ih hq
          exact ⟨levels + 1, onInner_eq_some_iff.mpr (.inr ⟨ts, q, hts, hlevels, rfl⟩)⟩
      obtain ⟨outer, houter⟩ := ih hrest
      refine ⟨max inner outer, ?_⟩
      rw [topDownFrom, Option.bind_eq_some_iff]
      exact ⟨p, onInner_mono (fun _ _ _ => topDown_mono (Nat.le_max_left inner outer)) hinner,
        topDownFrom_le (Nat.le_max_right inner outer) houter⟩

theorem walkOn_of_topDownFrom {levels : Nat}
    (hbelow : ∀ s ts r, topDown d v levels s ts = some r →
      ∃ n, ∀ steps, n ≤ steps → walk d v steps s ts = some r)
    {s : σ} {done todo : List Token} {r : σ × List Token}
    (h : topDownFrom d v (topDown d v levels) s done todo = some r) :
    ∃ n, ∀ steps, n ≤ steps → walkOn d v steps s done todo = some r := by
  induction todo generalizing s done with
  | nil =>
    refine ⟨1, fun steps hle => ?_⟩
    obtain ⟨steps, rfl⟩ := Nat.exists_eq_add_of_le' hle
    rw [walkOn_nil, ← h, topDownFrom]
  | cons t todo ih =>
    rw [topDownFrom, Option.bind_eq_some_iff] at h
    obtain ⟨p, hp, hrest⟩ := h
    obtain ⟨inner, hinner⟩ : ∃ n, ∀ steps, n ≤ steps → onInner (walk d v steps)
        (d.visited v s done t todo).1 (d.visited v s done t todo).2 = some p := by
      obtain ⟨hts, rfl⟩ | ⟨ts, q, hts, hq, rfl⟩ := onInner_eq_some_iff.mp hp
      · exact ⟨0, fun _ _ => onInner_eq_some_iff.mpr (.inl ⟨hts, rfl⟩)⟩
      · obtain ⟨n, hn⟩ := hbelow _ ts q hq
        exact ⟨n, fun steps hle => onInner_eq_some_iff.mpr (.inr ⟨ts, q, hts, hn steps hle, rfl⟩)⟩
    obtain ⟨outer, houter⟩ := ih hrest
    refine ⟨max inner outer + 1, fun steps hle => ?_⟩
    obtain ⟨steps, rfl⟩ := Nat.exists_eq_add_of_le' (Nat.le_of_add_left_le hle)
    rw [walkOn_cons hv, Option.bind_eq_some_iff]
    exact ⟨p, hinner steps (by omega), houter steps (by omega)⟩

/-- The recursion, if it has a result, is what a walk comes to, however many steps it is given
beyond those it needs. -/
theorem walk_of_topDown {levels : Nat} {s : σ} {ts : List Token} {r : σ × List Token}
    (h : topDown d v levels s ts = some r) :
    ∃ n, ∀ steps, n ≤ steps → walk d v steps s ts = some r := by
  induction levels generalizing s ts r with
  | zero => cases h
  | succ levels ih =>
    simp only [walk_eq_walkOn]
    exact walkOn_of_topDownFrom hv d (fun _ _ _ => ih) h

theorem topDown_of_walk {steps : Nat} {s : σ} {ts : List Token} {r : σ × List Token}
    (h : walk d v steps s ts = some r) : ∃ levels, topDown d v levels s ts = some r := by
  rw [walk_eq_walkOn] at h
  obtain ⟨levels, hlevels⟩ := topDownFrom_of_walkOn hv d h
  exact ⟨levels + 1, hlevels⟩

end

/-! ## Walks that end -/

section

variable {β : Type} [Preorder β] (d : Direction) (v : Visitor σ) (budget : σ → β)

/-- A recursion that has a result, and has not raised the budget. -/
def Ends (s : σ) (ts : List Token) : Prop :=
  ∃ levels r, topDown d v levels s ts = some r ∧ budget r.1 ≤ budget s

variable {d v budget}

theorem onInner_ends {s : σ} {t : Token} (h : ∀ ts, t.children = some ts → Ends d v budget s ts) :
    ∃ levels p, onInner (topDown d v levels) s t = some p ∧ budget p.1 ≤ budget s := by
  cases hts : t.children with
  | none => exact ⟨0, (s, t), onInner_eq_some_iff.mpr (.inl ⟨hts, rfl⟩), le_refl _⟩
  | some ts =>
    obtain ⟨levels, r, hr, hle⟩ := h ts hts
    exact ⟨levels, _, onInner_eq_some_iff.mpr (.inr ⟨ts, r, hts, hr, rfl⟩), hle⟩

/-- A level ends if everything ends that has less of the budget, or as much of it and less depth. -/
theorem topDownFrom_ends (hv : v.IsLocal) (hb : v.DeepensWithin budget) {b : β} {depth : Nat}
    (hless : ∀ s ts, budget s < b → Ends d v budget s ts)
    (hshallow : ∀ s ts, budget s ≤ b → levelDepth ts < depth → Ends d v budget s ts)
    {s : σ} (hs : budget s ≤ b) (done : List Token) {todo : List Token}
    (hdepth : ∀ t ∈ todo, t.depth ≤ depth) :
    ∃ levels r, topDownFrom d v (topDown d v levels) s done todo = some r
      ∧ budget r.1 ≤ budget s := by
  induction todo generalizing s done with
  | nil => exact ⟨0, _, rfl, le_refl _⟩
  | cons t todo ih =>
    have hcost := hb s (d.cursor done (t :: todo)) t (d.visited v s done t todo).2
      (d.current?_cursor done t todo) (by rw [d.visit_eq hv, d.current?_cursor])
    rw [d.visit_eq hv] at hcost
    have hpaid : budget (d.visited v s done t todo).1 ≤ budget s :=
      hcost.elim le_of_lt And.left
    have hbelow (ts : List Token) (hts : (d.visited v s done t todo).2.children = some ts) :
        Ends d v budget (d.visited v s done t todo).1 ts := by
      obtain hlt | ⟨hle, hdeep⟩ := hcost
      · exact hless _ ts (lt_of_lt_of_le hlt hs)
      · have ht := hdepth t List.mem_cons_self
        rw [Token.depth_eq_of_children hts] at hdeep
        exact hshallow _ ts (le_trans hle hs) (by omega)
    obtain ⟨inner, p, hp, hple⟩ := onInner_ends hbelow
    obtain ⟨outer, r, hr, hrle⟩ := ih (le_trans hple (le_trans hpaid hs)) (p.2 :: done)
      fun u hu => hdepth u (List.mem_cons_of_mem t hu)
    refine ⟨max inner outer, r, ?_, le_trans hrle (le_trans hple hpaid)⟩
    rw [topDownFrom, Option.bind_eq_some_iff]
    exact ⟨p, onInner_mono (fun _ _ _ => topDown_mono (Nat.le_max_left inner outer)) hp,
      topDownFrom_le (Nat.le_max_right inner outer) hr⟩

theorem mem_order {d : Direction} {t : Token} {ts : List Token} : t ∈ d.order ts ↔ t ∈ ts := by
  cases d <;> simp [Direction.order]

theorem ends_of_depth_le (hv : v.IsLocal) (hb : v.DeepensWithin budget) {b : β}
    (hless : ∀ s ts, budget s < b → Ends d v budget s ts) {depth : Nat} {s : σ}
    (hs : budget s ≤ b) {ts : List Token} (hdepth : levelDepth ts ≤ depth) :
    Ends d v budget s ts := by
  induction depth using Nat.strong_induction_on generalizing s ts with
  | h depth ih =>
    have hbelow : ∀ t ∈ d.order ts, t.depth ≤ depth := fun t ht =>
      le_trans (depth_le_levelDepth (mem_order.mp ht)) hdepth
    obtain ⟨levels, r, hr, hle⟩ := topDownFrom_ends hv hb hless
      (fun s ts hs hlt => ih (levelDepth ts) hlt hs (le_refl _)) hs [] hbelow
    exact ⟨levels + 1, r, hr, hle⟩

/-- A visitor that can deepen tokens only so often comes to an end on every tree. -/
theorem ends [WellFoundedLT β] (hv : v.IsLocal) (hb : v.DeepensWithin budget) (s : σ)
    (ts : List Token) : Ends d v budget s ts := by
  have hall : ∀ b s ts, budget s ≤ b → Ends d v budget s ts := by
    intro b
    induction b using WellFoundedLT.induction with
    | ind b ih =>
      intro s ts hs
      exact ends_of_depth_le hv hb (fun s ts hlt => ih _ hlt s ts (le_refl _)) hs (le_refl _)
  exact hall (budget s) s ts (le_refl _)

end

/-! ## The order of the visits -/

/-- The log does not touch the walk. -/
theorem walkFrom_logged (d : Direction) (v : Visitor σ) (steps : Nat) (s : σ)
    (log : List (Option Token × Option Token)) (place? : Option Nat) (ts : List Token) :
    (walkFrom d v.logged steps (s, log) place? ts).map (fun r => (r.1.1, r.2))
      = walkFrom d v steps s place? ts := by
  induction steps generalizing s log place? ts with
  | zero => cases place? <;> rfl
  | succ steps ih =>
    cases place? with
    | none => rfl
    | some i =>
      unfold walkFrom
      split
      · simp only [Visitor.logged]
        generalize ({ level := ts, index := i } : Cursor Token) = c
        generalize (c.current?, (v s c).2.current?) :: log = log
        split
        · exact ih _ _ _ _
        · rename_i us _
          rw [← ih (v s c).1 log (d.first? us) us]
          cases walkFrom d v.logged steps ((v s c).1, log) (d.first? us) us with
          | none => rfl
          | some r => exact ih _ _ _ _
      · cases d with
        | forward => rfl
        | backward => exact ih _ _ _ _

theorem isLocal_logged {v : Visitor σ} (hv : v.IsLocal) : v.logged.IsLocal :=
  fun s c => hv s.1 c

theorem Direction.visited_logged {v : Visitor σ} (hv : v.IsLocal) (d : Direction)
    (s : σ × List (Option Token × Option Token)) (done : List Token) (t : Token)
    (todo : List Token) :
    d.visited v.logged s done t todo = (((d.visited v s.1 done t todo).1,
      (some t, some (d.visited v s.1 done t todo).2) :: s.2), (d.visited v s.1 done t todo).2) := by
  have hleft : (v s.1 (d.cursor done (t :: todo))).2.current?
      = some (d.visited v s.1 done t todo).2 := by
    rw [d.visit_eq hv]
    exact d.current?_cursor done _ todo
  rw [← hleft, ← d.current?_cursor done t todo]
  rfl

/-- A stretch of a log that, put before the log of what comes after it, visits `todo` first. -/
def LogsFirst (d : Direction) (todo : List Token) (new : List (Option Token × Option Token)) : Prop :=
  ∀ rest log, Follows d rest log → Follows d (todo ++ rest) (new ++ log)

theorem logsFirst_cons {d : Direction} {t u : Token} {todo : List Token}
    {inner outer : List (Option Token × Option Token)} (hinner : LogsFirst d (d.order u.inner) inner)
    (houter : LogsFirst d todo outer) : LogsFirst d (t :: todo) ((some t, some u) :: (inner ++ outer)) := by
  intro rest log h
  have hlog : (inner ++ outer).append log = inner ++ (outer ++ log) := List.append_assoc ..
  refine ⟨t, u, todo ++ rest, rfl, rfl, rfl, ?_⟩
  rw [hlog]
  exact hinner _ _ (houter _ _ h)

theorem logsFirst_of_topDownFrom {v : Visitor σ} (hv : v.IsLocal) {d : Direction}
    {descend : σ × List (Option Token × Option Token) → List Token →
      Option ((σ × List (Option Token × Option Token)) × List Token)}
    (hbelow : ∀ s ts r, descend s ts = some r →
      ∃ new, r.1.2 = new.reverse ++ s.2 ∧ LogsFirst d (d.order ts) new)
    {s : σ × List (Option Token × Option Token)} {done todo : List Token}
    {r : (σ × List (Option Token × Option Token)) × List Token}
    (h : topDownFrom d v.logged descend s done todo = some r) :
    ∃ new, r.1.2 = new.reverse ++ s.2 ∧ LogsFirst d todo new := by
  induction todo generalizing s done with
  | nil =>
    cases h
    exact ⟨[], rfl, fun rest log hrest => hrest⟩
  | cons t todo ih =>
    rw [topDownFrom, Option.bind_eq_some_iff] at h
    obtain ⟨p, hp, hrest⟩ := h
    obtain ⟨outer, houter, hfollows⟩ := ih hrest
    rw [d.visited_logged hv] at hp
    generalize d.visited v s.1 done t todo = q at hp
    obtain ⟨inner, hinner, hbelow⟩ : ∃ new, p.1.2 = new.reverse ++ (some t, some q.2) :: s.2
        ∧ LogsFirst d (d.order q.2.inner) new := by
      obtain ⟨hts, rfl⟩ | ⟨ts, r, hts, hr, rfl⟩ := onInner_eq_some_iff.mp hp
      · refine ⟨[], rfl, ?_⟩
        rw [Token.inner, hts]
        cases d <;> exact fun _ _ h => h
      · rw [Token.inner, hts]
        exact hbelow _ ts r hr
    exact ⟨(some t, some q.2) :: (inner ++ outer), by rw [houter, hinner]; simp,
      logsFirst_cons hbelow hfollows⟩

theorem logsFirst_of_topDown {v : Visitor σ} (hv : v.IsLocal) {d : Direction} {levels : Nat}
    {s : σ × List (Option Token × Option Token)} {ts : List Token}
    {r : (σ × List (Option Token × Option Token)) × List Token}
    (h : topDown d v.logged levels s ts = some r) :
    ∃ new, r.1.2 = new.reverse ++ s.2 ∧ LogsFirst d (d.order ts) new := by
  induction levels generalizing s ts r with
  | zero => cases h
  | succ levels ih => exact logsFirst_of_topDownFrom hv (fun _ _ _ => ih) h

/-- A finished walk has visited each token whose turn it was. -/
theorem follows_of_walk {v : Visitor σ} (hv : v.IsLocal) {d : Direction} {steps : Nat} {s : σ}
    {ts : List Token} {r : (σ × List (Option Token × Option Token)) × List Token}
    (h : walk d v.logged steps (s, []) ts = some r) : Follows d (d.order ts) r.1.2.reverse := by
  obtain ⟨levels, hlevels⟩ := topDown_of_walk (isLocal_logged hv) d h
  obtain ⟨new, hnew, hfirst⟩ := logsFirst_of_topDown hv hlevels
  rw [hnew, List.append_nil, List.reverse_reverse]
  simpa using hfirst [] [] rfl

/-! ## The result -/

/-- A walk comes to an end with `r`, however many steps it is given beyond those it needs; so does the
recursion over the tree; and the tokens were visited one after the other as each had its turn. -/
structure EndsWith (d : Direction) (v : Visitor σ) (s : σ) (ts : List Token) (r : σ × List Token) :
    Prop where
  settles : ∃ n, ∀ steps, n ≤ steps → walk d v steps s ts = some r
  recursion : ∃ levels, topDown d v levels s ts = some r
  visits : ∃ log, (∃ n, ∀ steps, n ≤ steps → walk d v.logged steps (s, []) ts = some ((r.1, log), r.2))
    ∧ Follows d (d.order ts) log.reverse

theorem endsWith_of_walk {d : Direction} {v : Visitor σ} (hv : v.IsLocal) {steps : Nat} {s : σ}
    {ts : List Token} {r : σ × List Token} (h : walk d v steps s ts = some r) :
    EndsWith d v s ts r := by
  obtain ⟨levels, hlevels⟩ := topDown_of_walk hv d h
  have hsame := walkFrom_logged d v steps s [] (d.first? ts) ts
  obtain ⟨⟨⟨s', log⟩, us⟩, hlogged, hr⟩ := Option.map_eq_some_iff.mp (hsame.trans h)
  cases hr
  have hlocal := isLocal_logged hv
  obtain ⟨more, hmore⟩ := topDown_of_walk hlocal d hlogged
  exact
    { settles := walk_of_topDown hv d hlevels
      recursion := ⟨levels, hlevels⟩
      visits := ⟨log, walk_of_topDown hlocal d hmore, follows_of_walk hv hlogged⟩ }

/-- **A walk is the recursion over the tree**, for a visitor that only looks around and changes the
token it visits. It comes to an end exactly if the recursion does, and then with the same tree and
state; each token of every level had its turn once, in the order of the walk, and what is below the
token left in its place directly after it. A walk does come to an end, on every tree, if the state of
the visitor bounds how often it leaves a token deeper than it found it. -/
theorem walk_eq_topDown (d : Direction) (v : Visitor σ) (hv : v.IsLocal) (s : σ) (ts : List Token) :
    (∀ r, (∃ steps, walk d v steps s ts = some r) ↔ ∃ levels, topDown d v levels s ts = some r)
      ∧ (∀ steps r, walk d v steps s ts = some r → EndsWith d v s ts r)
      ∧ ∀ (β : Type) [Preorder β] [WellFoundedLT β] (budget : σ → β), v.DeepensWithin budget →
          ∃ r, EndsWith d v s ts r := by
  refine ⟨fun r => ⟨?_, ?_⟩, fun _ _ h => endsWith_of_walk hv h, ?_⟩
  · rintro ⟨steps, h⟩
    exact topDown_of_walk hv d h
  · rintro ⟨levels, h⟩
    obtain ⟨n, hn⟩ := walk_of_topDown hv d h
    exact ⟨n, hn n (Nat.le_refl n)⟩
  · intro β _ _ budget hb
    obtain ⟨levels, r, hr, -⟩ := ends (d := d) hv hb s ts
    obtain ⟨n, hn⟩ := walk_of_topDown hv d hr
    exact ⟨r, endsWith_of_walk hv (hn n (Nat.le_refl n))⟩

/-- A visitor that puts the tokens of its state in the place of those it visits, one by one, and
then only looks. -/
def handOut : Visitor (List Token)
  | [], c => ([], c)
  | t :: ts, c => (ts, (c.replace t).2)

theorem isLocal_handOut : handOut.IsLocal := by
  intro s c
  cases s with
  | nil => exact ⟨[], rfl, rfl⟩
  | cons t ts => exact ⟨[.replace t], rfl, rfl⟩

theorem deepensWithin_handOut : handOut.DeepensWithin List.length := by
  intro s c t u ht hu
  cases s with
  | nil =>
    rw [handOut, ht] at hu
    cases hu
    exact .inr ⟨Nat.le_refl _, Nat.le_refl _⟩
  | cons t ts => exact .inl (Nat.lt_succ_self _)

/-- Backwards, the last of two tokens is left with two tokens below it, and the last of these with
another one; then there is nothing left to put in. -/
theorem walk_eq_topDown_handOut :
    let tokens := [Token.inline "x" [.text "y", .text "z"], Token.inline "u" [.text "v"]]
    let ts := [Token.text "a", Token.text "b"]
    let left := [Token.text "a", Token.inline "x" [.text "y", .inline "u" [.text "v"]]]
    handOut.IsLocal ∧ handOut.DeepensWithin List.length
      ∧ (∃ r, EndsWith .backward handOut tokens ts r)
      ∧ (∃ steps, walk .backward handOut steps tokens ts = some ([], left))
      ∧ EndsWith .backward handOut tokens ts ([], left)
      ∧ ∃ log, walk .backward handOut.logged 9 (tokens, []) ts = some (([], log), left)
        ∧ log.reverse.map Prod.fst = [some (.text "b"), some (.text "z"), some (.text "v"),
          some (.text "y"), some (.text "a")] := by
  intro tokens ts left
  obtain ⟨hsame, hends, hmeasured⟩ := walk_eq_topDown .backward handOut isLocal_handOut tokens ts
  obtain ⟨steps, hwalk⟩ := (hsame ([], left)).mpr ⟨3, rfl⟩
  exact ⟨isLocal_handOut, deepensWithin_handOut, hmeasured Nat List.length deepensWithin_handOut,
    ⟨steps, hwalk⟩, hends steps _ hwalk, _, rfl, rfl⟩

/-! ## Walks without end -/

/-- A visitor that puts each token it visits into a level of its own. -/
def putInside : Visitor Unit := fun _ c => ((), c.edit fun t => .inline "" [t])

theorem isLocal_putInside : putInside.IsLocal :=
  fun _ _ => ⟨[.edit fun t => .inline "" [t]], rfl, rfl⟩

/-- What is below the token left behind is the token just visited, so the walk is where it was. -/
theorem walk_putInside (d : Direction) (steps : Nat) (t : Token) :
    walk d putInside steps () [t] = none := by
  induction steps generalizing t with
  | zero => cases d <;> rfl
  | succ steps ih =>
    have horder (u : Token) : d.order [u] = [u] := by cases d <;> rfl
    have hvisited : d.visited putInside () [] t [] = ((), .inline "" [t]) := by cases d <;> rfl
    rw [walk_eq_walkOn, horder, walkOn_cons isLocal_putInside, hvisited, onInner, Token.inline]
    dsimp only
    rw [ih t]
    rfl

/-- A visitor that changes nothing but the token it visits may keep a walk going for ever, on a tree of
one token. If it stops after three visits, that token has been visited four times. -/
theorem walk_putInside_endless :
    (putInside.IsLocal ∧ ∀ d steps, walk d putInside steps () [Token.text "a"] = none)
      ∧ handOut.IsLocal
      ∧ let inside := Token.inline "" [.text "a"]
        ∃ log, walk .forward handOut.logged 9 ([inside, inside, inside], []) [.text "a"]
            = some (([], log), [.inline "" [.inline "" [inside]]])
          ∧ log.map Prod.fst = List.replicate 4 (some (Token.text "a")) := by
  refine ⟨⟨isLocal_putInside, fun d steps => walk_putInside d steps _⟩, isLocal_handOut, ?_⟩
  exact ⟨_, rfl, rfl⟩

end MarkdownPreview
