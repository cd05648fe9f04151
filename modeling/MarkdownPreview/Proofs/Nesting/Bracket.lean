import MarkdownPreview.Token.Basic

/-!
# Words of brackets

For the question whether tokens are properly nested only three things matter of each: whether it
opens something, closes something, or does neither, and what. So a level is read as a word of
brackets (`Bracket`). `waitingAfter` reads a word from the left and keeps what has been opened and
not closed yet, the last one first; a closing bracket must close just that. A word is `Balanced` if
it can be read and nothing waits at its end.

Levels are read in two ways: `Token.bracket` tells elements apart, and `Token.fullBracket` also the
tags of the tokens and whether they are hidden.
-/

set_option autoImplicit false

namespace MarkdownPreview

universe u

/-- What a token does to the nesting; `α` says what is opened and closed. -/
inductive Bracket (α : Type u) where
  | opening (a : α)
  | closing (a : α)
  | plain
  deriving DecidableEq, Repr

variable {α : Type u} [DecidableEq α]

/-- What waits to be closed after one more bracket; `none` if the bracket closes something else. -/
def Bracket.step : List α → Bracket α → Option (List α)
  | waiting, .opening a => some (a :: waiting)
  | a :: waiting, .closing b => if b = a then some waiting else none
  | [], .closing _ => none
  | waiting, .plain => some waiting

/-- What waits to be closed after a word. -/
def waitingAfter (waiting : List α) (w : List (Bracket α)) : Option (List α) :=
  w.foldlM Bracket.step waiting

/-- A word in which every bracket that opens is closed, in the order of a stack. -/
def Balanced (w : List (Bracket α)) : Prop := waitingAfter [] w = some []

instance (w : List (Bracket α)) : Decidable (Balanced w) :=
  inferInstanceAs (Decidable (waitingAfter [] w = some []))

/-! ## Reading -/

@[simp] theorem waitingAfter_nil (waiting : List α) : waitingAfter waiting [] = some waiting := rfl

@[simp] theorem waitingAfter_opening (waiting : List α) (a : α) (w : List (Bracket α)) :
    waitingAfter waiting (.opening a :: w) = waitingAfter (a :: waiting) w := rfl

@[simp] theorem waitingAfter_plain (waiting : List α) (w : List (Bracket α)) :
    waitingAfter waiting (.plain :: w) = waitingAfter waiting w := by
  cases waiting <;> rfl

@[simp] theorem waitingAfter_closing (waiting : List α) (a b : α) (w : List (Bracket α)) :
    waitingAfter (a :: waiting) (.closing b :: w)
      = if b = a then waitingAfter waiting w else none := by
  simp only [waitingAfter, List.foldlM_cons, Bracket.step]
  split <;> rfl

theorem waitingAfter_cons (waiting : List α) (b : Bracket α) (w : List (Bracket α)) :
    waitingAfter waiting (b :: w)
      = (Bracket.step waiting b).bind fun waiting => waitingAfter waiting w := by
  rw [waitingAfter, List.foldlM_cons]
  rfl

theorem waitingAfter_append (waiting : List α) (w w' : List (Bracket α)) :
    waitingAfter waiting (w ++ w')
      = (waitingAfter waiting w).bind fun waiting => waitingAfter waiting w' := by
  simp only [waitingAfter, List.foldlM_append]
  rfl

/-- Brackets that neither open nor close anything do not count. -/
theorem waitingAfter_filter (waiting : List α) (w : List (Bracket α)) :
    waitingAfter waiting (w.filter (· ≠ .plain)) = waitingAfter waiting w := by
  induction w generalizing waiting with
  | nil => rfl
  | cons b w ih =>
    cases b with
    | plain => rw [List.filter_cons_of_neg (by simp), waitingAfter_plain, ih]
    | opening a => rw [List.filter_cons_of_pos (by simp), waitingAfter_opening, waitingAfter_opening, ih]
    | closing a =>
      rw [List.filter_cons_of_pos (by simp), waitingAfter_cons, waitingAfter_cons]
      simp only [ih]

/-- What waits below is not touched. -/
theorem waitingAfter_below {waiting waiting' : List α} {w : List (Bracket α)}
    (h : waitingAfter waiting w = some waiting') (below : List α) :
    waitingAfter (waiting ++ below) w = some (waiting' ++ below) := by
  induction w generalizing waiting with
  | nil =>
    cases h
    rfl
  | cons b w ih =>
    cases b with
    | opening a =>
      have h' : waitingAfter (a :: waiting) w = some waiting' := h
      exact ih h'
    | plain =>
      rw [waitingAfter_plain] at h ⊢
      exact ih h
    | closing b =>
      cases waiting with
      | nil => cases h
      | cons a waiting =>
        rw [waitingAfter_closing] at h
        rw [List.cons_append, waitingAfter_closing]
        split at h
        · rename_i hba
          rw [if_pos hba]
          exact ih h
        · cases h

/-! ## Balanced words -/

theorem Balanced.waitingAfter {w : List (Bracket α)} (h : Balanced w) (waiting : List α) :
    waitingAfter waiting w = some waiting := waitingAfter_below h waiting

theorem Balanced.nil : Balanced ([] : List (Bracket α)) := rfl

theorem Balanced.append {w w' : List (Bracket α)} (h : Balanced w) (h' : Balanced w') :
    Balanced (w ++ w') := by
  rw [Balanced, waitingAfter_append, h]
  exact h'

theorem Balanced.plain : Balanced [(.plain : Bracket α)] := rfl

/-- A balanced word between two brackets that belong together. -/
theorem Balanced.enclose {w : List (Bracket α)} (h : Balanced w) (a : α) :
    Balanced (.opening a :: (w ++ [.closing a])) := by
  rw [Balanced, waitingAfter_opening, waitingAfter_append, h.waitingAfter]
  simp

theorem Balanced.flatMap {β : Type} {f : β → List (Bracket α)} {xs : List β}
    (h : ∀ x ∈ xs, Balanced (f x)) : Balanced (xs.flatMap f) := by
  induction xs with
  | nil => exact .nil
  | cons x xs ih =>
    rw [List.forall_mem_cons] at h
    rw [List.flatMap_cons]
    exact h.1.append (ih h.2)

/-- Leaving a balanced stretch out of a word changes nothing. -/
theorem waitingAfter_leaveOut {w : List (Bracket α)} (h : Balanced w) (waiting : List α)
    (before after : List (Bracket α)) : waitingAfter waiting (before ++ w ++ after)
      = waitingAfter waiting (before ++ after) := by
  rw [List.append_assoc, waitingAfter_append, waitingAfter_append]
  cases MarkdownPreview.waitingAfter waiting before with
  | none => rfl
  | some waiting' =>
    rw [Option.bind_some, Option.bind_some, waitingAfter_append, h.waitingAfter, Option.bind_some]

/-! ## Tokens as brackets -/

def Kind.nesting : Kind → Nesting
  | .opening _ => .opening
  | .closing _ => .closing
  | _ => .selfClosing

/-- The nesting of a token agrees with its kind. -/
def Token.Fits (t : Token) : Prop := t.nesting = t.kind.nesting

instance (t : Token) : Decidable t.Fits := inferInstanceAs (Decidable (_ = _))

/-- A token as a bracket that tells elements apart. -/
def Token.bracket (t : Token) : Bracket Element :=
  match t.kind with
  | .opening e => .opening e
  | .closing e => .closing e
  | _ => .plain

/-- A token as a bracket that also tells apart the tags, and what is hidden from what is not. -/
def Token.fullBracket (t : Token) : Bracket (Element × String × Bool) :=
  match t.kind with
  | .opening e => .opening (e, t.tag, t.hidden)
  | .closing e => .closing (e, t.tag, t.hidden)
  | _ => .plain

theorem Token.Fits.ne_closing {t : Token} (h : t.Fits) (hk : t.kind.nesting ≠ .closing) :
    t.nesting ≠ .closing := by
  rw [h]
  exact hk

theorem Token.Fits.cases {t : Token} (h : t.Fits) :
    (∃ e, t.nesting = .opening ∧ t.bracket = .opening e)
      ∨ (∃ e, t.nesting = .closing ∧ t.bracket = .closing e)
      ∨ (t.nesting = .selfClosing ∧ t.bracket = .plain) := by
  unfold Token.Fits at h
  unfold Token.bracket
  rw [h]
  cases t.kind with
  | opening e => exact .inl ⟨e, rfl, rfl⟩
  | closing e => exact .inr (.inl ⟨e, rfl, rfl⟩)
  | _ => exact .inr (.inr ⟨rfl, rfl⟩)

end MarkdownPreview
