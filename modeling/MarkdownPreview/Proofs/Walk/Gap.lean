import MarkdownPreview.Proofs.Walk.Tracking
import MarkdownPreview.Walk.Script

/-!
# Where a walk goes on, and what it passes over

A forward walk goes on behind the token it has visited or, if that is gone, in the gap it left. No
sibling that stood after the token should come to lie before that place. The siblings are marked
here (`Action.lift` does to a marked level what an action does to a level), so that they can be told
from what a visitor puts in.

While the token is there, or a splice stays on one side of the gap, none of them is passed over. A
splice over the gap, from a place before it to one behind it, leaves the place of the cursor as it
is; if it puts in fewer tokens than there are up to that place, what follows moves to before it
(`Action.overruns`). Without such a splice no sibling is passed over (`next_le_of_follows`), and with
one it happens (`performAll_passes_over`).
-/

set_option autoImplicit false

namespace MarkdownPreview.Cursor

variable {α : Type}

/-- What an action does to a level with marks: what it puts in has none, and what it edits keeps
its own. -/
def Action.lift : Action α → Action (Bool × α)
  | .peek offset => .peek offset
  | .replace x => .replace (false, x)
  | .splice start count insert => .splice start count (unmarked insert)
  | .insertAfter x => .insertAfter (false, x)
  | .remove => .remove
  | .resume index => .resume index
  | .edit f => .edit fun m => (m.1, f m.2)
  | .editAt index f => .editAt index fun m => (m.1, f m.2)

/-- A cursor without the marks of its level. -/
def unmark (c : Cursor (Bool × α)) : Cursor α :=
  { level := c.level.map Prod.snd, index := c.index, removed := c.removed, resume? := c.resume? }

/-- A level in which the siblings after the current item are marked. -/
def followed (before : List α) (x : α) (after : List α) : List (Bool × α) :=
  unmarked (before ++ [x]) ++ after.map (Prod.mk true)

/-- Whether an action exchanges a range around the gap that the current item left, for so little
that what follows comes to lie before the place of the cursor. -/
def Action.overruns (c : Cursor α) : Action α → Bool
  | .splice start count insert => c.removed && start + insert.length < c.index
      && c.index < min (start + count) c.level.length
  | _ => false

/-- Whether an action leaves it to the walk where it goes on, and does not overrun the gap. -/
def Action.isTame (c : Cursor α) : Action α → Bool
  | .resume _ => false
  | a => !a.overruns c

def areTame : List (Action α) → Cursor α → Bool
  | [], _ => true
  | a :: actions, c => a.isTame c && areTame actions (c.perform a).2

/-! ## Marks make no difference -/

theorem unmarked_snd (xs : List α) : (unmarked xs).map Prod.snd = xs := by
  simp [unmarked, Function.comp_def]

theorem followed_snd (before : List α) (x : α) (after : List α) :
    (followed before x after).map Prod.snd = before ++ x :: after := by
  simp [followed, unmarked_snd, Function.comp_def]

theorem unmark_splice (c : Cursor (Bool × α)) (start count : Nat) (insert : List α) :
    (c.splice start count (unmarked insert)).2.unmark = (c.unmark.splice start count insert).2 := by
  simp only [splice, unmark, List.length_map, length_unmarked, List.length_take, List.length_drop]
  split
  · simp [unmarked_snd]
  · split <;> simp [unmarked_snd]

theorem unmark_editAt (c : Cursor (Bool × α)) (i : Nat) (f : Bool × α → Bool × α) (g : α → α)
    (h : ∀ m, (f m).2 = g m.2) : (c.editAt i f).unmark = c.unmark.editAt i g := by
  have hmap : (c.level.modify i f).map Prod.snd = (c.level.map Prod.snd).modify i g := by
    apply List.ext_getElem?
    intro n
    simp only [List.getElem?_map, List.getElem?_modify]
    cases c.level[n]? with
    | none => rfl
    | some m => by_cases hn : i = n <;> simp [hn, h]
  simp only [editAt, unmark, hmap]

theorem unmark_edit (c : Cursor (Bool × α)) (f : Bool × α → Bool × α) (g : α → α)
    (h : ∀ m, (f m).2 = g m.2) : (c.edit f).unmark = c.unmark.edit g := by
  unfold edit
  have hr : c.unmark.removed = c.removed := rfl
  rw [hr]
  split
  · rfl
  · exact unmark_editAt c c.index f g h

theorem unmark_perform (c : Cursor (Bool × α)) (a : Action α) :
    (c.perform a.lift).2.unmark = (c.unmark.perform a).2 := by
  cases a with
  | peek _ | resume _ => rfl
  | replace x => exact unmark_edit c _ _ fun _ => rfl
  | edit f => exact unmark_edit c _ _ fun _ => rfl
  | editAt i f => exact unmark_editAt c i _ _ fun _ => rfl
  | splice start count insert => exact unmark_splice c start count insert
  | insertAfter x => exact unmark_splice c (c.index + 1) 0 [x]
  | remove =>
    have hr : c.unmark.removed = c.removed := rfl
    simp only [Action.lift, perform, remove, hr]
    split
    · rfl
    · exact unmark_splice c c.index 1 []

theorem unmark_performAll (c : Cursor (Bool × α)) (actions : List (Action α)) :
    (c.performAll (actions.map Action.lift)).2.unmark = (c.unmark.performAll actions).2 := by
  induction actions generalizing c with
  | nil => rfl
  | cons a actions ih =>
    rw [List.map_cons, performAll_cons, performAll_cons, ih, unmark_perform]

/-! ## Nothing marked before the place where the walk goes on -/

/-- The place where a forward walk goes on, if the visitor does not choose another. -/
def onward (c : Cursor α) : Nat := if c.removed then c.index else c.index + 1

/-- The place where a walk goes on lies in the level, and nothing before it is marked. -/
structure Clear (c : Cursor (Bool × α)) : Prop where
  inside : c.onward ≤ c.level.length
  onward_le : ∀ k x, c.level[k]? = some (true, x) → c.onward ≤ k

theorem mark_of_exchange {ms : List (Bool × α)} {insert : List α} {start stop k : Nat} {x : α}
    (hlo : start ≤ stop) (hhi : stop ≤ ms.length)
    (h : (ms.take start ++ unmarked insert ++ ms.drop stop)[k]? = some (true, x)) :
    ∃ p, ms[p]? = some (true, x)
      ∧ (p = k ∧ k < start ∨ stop ≤ p ∧ k + stop = p + start + insert.length) := by
  have hstart : min start ms.length = start := by omega
  rw [List.append_assoc, List.getElem?_append, List.length_take, hstart] at h
  split at h
  · rename_i hk
    rw [List.getElem?_take, if_pos hk] at h
    exact ⟨k, h, .inl ⟨rfl, hk⟩⟩
  · rw [List.getElem?_append, length_unmarked] at h
    split at h
    · simp [unmarked] at h
    · rw [List.getElem?_drop] at h
      exact ⟨_, h, .inr ⟨by omega, by omega⟩⟩

namespace Clear

variable {c c' : Cursor (Bool × α)}

/-- The place where a walk goes on stays clear if it moves no further than what follows the range:
with `start` it would be before the range, with `max c.onward stop` behind it. -/
theorem exchange (h : Clear c) {insert : List α} {start stop : Nat}
    (hlo : start ≤ stop) (hhi : stop ≤ c.level.length)
    (hlevel : c'.level = c.level.take start ++ unmarked insert ++ c.level.drop stop)
    (hbefore : c.onward < start → c'.onward ≤ c.onward)
    (hbehind : c'.onward + stop ≤ max c.onward stop + start + insert.length) : Clear c' := by
  have hin := h.inside
  constructor
  · rw [hlevel]
    simp only [List.length_append, List.length_take, List.length_drop, length_unmarked]
    omega
  · intro k x hk
    rw [hlevel] at hk
    obtain ⟨p, hp, hplace⟩ := mark_of_exchange hlo hhi hk
    have honward := h.onward_le p x hp
    omega

/-- A splice that does not overrun the gap comes as far as the gap from one side only. -/
theorem not_over_gap {start count : Nat} {insert : List α}
    (ho : (Action.splice start count insert).overruns c.unmark = false) :
    ¬ (c.removed = true ∧ start + insert.length < c.index
      ∧ c.index < min (start + count) c.level.length) := by
  rintro ⟨hr, hstart, hstop⟩
  have htrue : (Action.splice start count insert).overruns c.unmark = true := by
    simp [Action.overruns, unmark, hr, hstart, hstop]
  rw [htrue] at ho
  cases ho

theorem splice (h : Clear c) {start count : Nat} {insert : List α}
    (ho : (Action.splice start count insert).overruns c.unmark = false) :
    Clear (c.splice start count (unmarked insert)).2 := by
  have hin := h.inside
  generalize hs : min start c.level.length = s
  generalize he : min (s + count) c.level.length = e
  have hlo : s ≤ e := by omega
  have hhi : e ≤ c.level.length := by omega
  have hover : ¬ (c.removed = true ∧ s + insert.length < c.index ∧ c.index < e) :=
    fun ⟨hr, hstart, hstop⟩ => not_over_gap ho ⟨hr, by omega, by omega⟩
  unfold Cursor.splice
  simp only [hs, he, List.length_take, List.length_drop, length_unmarked]
  -- the range takes the item out, lies before the cursor, or after it and over the gap
  split
  · rename_i hcover
    simp only [Bool.and_eq_true, Bool.not_eq_true', decide_eq_true_eq] at hcover
    have honward : c.onward = c.index + 1 := if_neg (by simp [hcover.1.1])
    refine h.exchange hlo hhi rfl (fun _ => ?_) ?_
    · rw [honward]
      simp only [onward, if_true]
      omega
    · simp only [onward, if_true]
      omega
  · rename_i hcover
    simp only [Bool.and_eq_true, Bool.not_eq_true', decide_eq_true_eq] at hcover
    split
    · rename_i hbefore
      have honward : c.index ≤ c.onward := by
        unfold onward
        split <;> omega
      refine h.exchange hlo hhi rfl (fun _ => ?_) ?_
      · omega
      · unfold onward
        dsimp only
        split <;> omega
    · refine h.exchange hlo hhi rfl (fun _ => Nat.le_refl _) ?_
      have hplace : c.onward ≤ s + insert.length := by
        unfold onward
        split
        · rename_i hr
          simp only [hr, true_and] at hover
          omega
        · rename_i hr
          simp only [Bool.not_eq_true] at hr
          simp only [hr, true_and] at hcover
          omega
      have hsame : onward { c with level := c.level.take s ++ unmarked insert ++ c.level.drop e }
        = c.onward := rfl
      rw [hsame]
      omega

theorem editAt (h : Clear c) (i : Nat) {f : Bool × α → Bool × α}
    (hf : ∀ m, (f m).1 = true → m.1 = true) : Clear (c.editAt i f) := by
  constructor
  · have hlen : (c.editAt i f).level.length = c.level.length := List.length_modify ..
    rw [hlen]
    exact h.inside
  · intro k x hk
    rw [Cursor.editAt, List.getElem?_modify, Option.map_eq_map, Option.map_eq_some_iff] at hk
    obtain ⟨m, hm, hx⟩ := hk
    have hmark : m.1 = true := by
      split at hx
      · exact hf m (by rw [hx])
      · rw [hx]
    exact h.onward_le k m.2 (by rw [hm, ← hmark])

theorem edit (h : Clear c) {f : Bool × α → Bool × α} (hf : ∀ m, (f m).1 = true → m.1 = true) :
    Clear (c.edit f) := by
  unfold Cursor.edit
  split
  · exact h
  · exact h.editAt c.index hf

theorem remove (h : Clear c) : Clear c.remove.2 := by
  by_cases hr : c.removed = true
  · rw [Cursor.remove, if_pos hr]
    exact h
  · rw [Cursor.remove, if_neg hr]
    have hover : (Action.splice c.index 1 []).overruns c.unmark = false := by
      simp [Action.overruns, unmark, hr]
    exact h.splice hover

theorem insertAfter (h : Clear c) (x : α) : Clear (c.insertAfter (false, x)) :=
  have hover : (Action.splice (c.index + 1) 0 [x]).overruns c.unmark = false := by
    simp [Action.overruns]
    omega
  h.splice hover

/-- **An action passes over no sibling, unless it overruns the gap.** -/
theorem perform (h : Clear c) {a : Action α} (ha : a.overruns c.unmark = false) :
    Clear (c.perform a.lift).2 := by
  cases a with
  | peek _ => exact h
  | resume _ => exact ⟨h.inside, h.onward_le⟩
  | replace x => exact h.edit fun _ hm => nomatch hm
  | edit f => exact h.edit fun _ hm => hm
  | editAt i f => exact h.editAt i fun _ hm => hm
  | splice start count insert => exact h.splice ha
  | insertAfter x => exact h.insertAfter x
  | remove => exact h.remove

theorem of_followed (before : List α) (x : α) (after : List α) :
    Clear { level := followed before x after, index := before.length } := by
  have hlen : (unmarked (before ++ [x])).length = before.length + 1 := by simp [length_unmarked]
  constructor
  · simp [onward, followed, hlen]
  · intro k y hk
    rw [followed, List.getElem?_append] at hk
    split at hk
    · simp only [unmarked, List.getElem?_map, Option.map_eq_some_iff] at hk
      obtain ⟨z, -, hz⟩ := hk
      cases hz
    · rename_i hlt
      rw [hlen, Nat.not_lt] at hlt
      exact hlt

end Clear

/-! ## A whole visit -/

theorem Action.overruns_of_isTame {c : Cursor α} {a : Action α} (h : a.isTame c = true) :
    a.overruns c = false := by
  cases a with
  | splice _ _ _ => simpa [isTame] using h
  | _ => rfl

theorem resume?_of_isTame {c : Cursor α} {a : Action α} (h : a.isTame c = true) :
    (c.perform a).2.resume? = c.resume? := by
  cases a with
  | splice start count insert => exact resume?_splice c start count insert
  | insertAfter x => exact resume?_splice c (c.index + 1) 0 [x]
  | remove =>
    simp only [perform, remove]
    split
    · rfl
    · exact resume?_splice c c.index 1 []
  | replace _ | edit _ =>
    simp only [perform, replace, edit]
    split <;> rfl
  | peek _ | editAt _ _ => rfl
  | resume _ => cases h

theorem Clear.performAll {c : Cursor (Bool × α)} (h : Clear c) {actions : List (Action α)}
    (ha : areTame actions c.unmark = true) :
    Clear (c.performAll (actions.map Action.lift)).2
      ∧ (c.unmark.performAll actions).2.resume? = c.unmark.resume? := by
  induction actions generalizing c with
  | nil => exact ⟨h, rfl⟩
  | cons a actions ih =>
    rw [areTame, Bool.and_eq_true, ← unmark_perform] at ha
    obtain ⟨hclear, hresume⟩ := ih (h.perform (Action.overruns_of_isTame ha.1)) ha.2
    refine ⟨hclear, ?_⟩
    rw [performAll_cons, ← unmark_perform, hresume, unmark_perform]
    exact resume?_of_isTame ha.1

theorem next?_eq_onward {c : Cursor Token} (h : c.resume? = none) :
    c.next? .forward = some c.onward := by
  unfold next?
  rw [h]
  rfl

/-- **No sibling is passed over, unless a splice overruns the gap.** After a visit that leaves it to
a forward walk where it goes on, the level with marks is the level, and no marked token, which stood
after the visited one and is still there, lies before the place where the walk goes on. -/
theorem next_le_of_follows (before : List Token) (t : Token) (after : List Token)
    (actions : List (Action Token))
    (h : areTame actions { level := before ++ t :: after, index := before.length } = true) :
    let c : Cursor Token := { level := before ++ t :: after, index := before.length }
    let m : Cursor (Bool × Token) := { level := followed before t after, index := before.length }
    (m.performAll (actions.map Action.lift)).2.unmark = (c.performAll actions).2
      ∧ ∃ next, (c.performAll actions).2.next? .forward = some next
        ∧ ∀ place u, (m.performAll (actions.map Action.lift)).2.level[place]? = some (true, u) →
            next ≤ place := by
  intro c m
  have hunmark : m.unmark = c := by simp [unmark, m, c, followed_snd]
  have htame : areTame actions m.unmark = true := by rwa [hunmark]
  obtain ⟨hclear, hresume⟩ := (Clear.of_followed before t after).performAll htame
  have hsame := unmark_performAll m actions
  rw [hunmark] at hsame
  rw [hunmark] at hresume
  refine ⟨hsame, (c.performAll actions).2.onward, next?_eq_onward hresume, ?_⟩
  intro place u hu
  rw [← hsame]
  exact hclear.onward_le place u hu

/-- The token is taken out; then there are splices before the gap, behind it, and over it. -/
theorem next_le_of_follows_amid :
    let before := [Token.text "a", Token.text "b"]
    let after := [Token.text "d", Token.text "e", Token.text "f"]
    let actions : List (Action Token) :=
      [.remove, .splice 0 1 [.text "x", .text "y"], .splice 3 1 [], .splice 1 3 [.text "z", .text "w"]]
    let c : Cursor Token := { level := before ++ .text "c" :: after, index := before.length }
    let m : Cursor (Bool × Token) :=
      { level := followed before (.text "c") after, index := before.length }
    areTame actions c = true
      ∧ (m.performAll (actions.map Action.lift)).2.level[3]? = some (true, .text "f")
      ∧ ∃ next, (c.performAll actions).2.next? .forward = some next ∧ next ≤ 3 := by
  intro before after actions c m
  have htame : areTame actions c = true := by decide +kernel
  obtain ⟨-, next, hnext, hle⟩ := next_le_of_follows before (.text "c") after actions htame
  refine ⟨htame, ?_, next, hnext, hle 3 (.text "f") ?_⟩
  · decide +kernel
  · decide +kernel

/-- Once the token at place 1 is gone, a splice over the gap brings the last of four tokens before
the place where the walk goes on, and the walk ends without a visit to it. -/
theorem performAll_passes_over :
    let actions : List (Action Token) := [.remove, .splice 0 2 []]
    let m : Cursor (Bool × Token) :=
      { level := followed [.text "a"] (.text "b") [.text "c", .text "d"], index := 1 }
    let c := (m.performAll (actions.map Action.lift)).2
    c.level = [(true, .text "d")] ∧ c.unmark.next? .forward = some 1
      ∧ (Script.run [⟨1, actions⟩] .forward [.text "a", .text "b", .text "c", .text "d"]).map
          (fun (visits, ts) => (visits.map (·.before.current?), ts))
        = some ([some (.text "a"), some (.text "b")], [.text "d"]) := by
  intro actions m c
  exact ⟨rfl, rfl, rfl⟩

end MarkdownPreview.Cursor
