import MarkdownPreview.Proofs.Text.Bytes
import MarkdownPreview.Proofs.Veil.Pieces

/-!
# Places around a comment

A Markdown tree refers to its source by byte offsets. When what a comment hides is changed, places
before the comment stay and places after it move with the text behind it (`Moves`). Between two such
places the two sources have texts that are alike, and the same text if both places are on one side
of the comment (`Sight`).
-/

set_option autoImplicit false

namespace MarkdownPreview.Comment

open Text

/-- A source with a comment in it. -/
def sourceWith (before body after : List Char) : List Char := before ++ (enclosed body ++ after)

/-- Where a place is when a comment after `before` hides `new` instead of `old`. No place within the
comment has moved anywhere. -/
inductive Moves (before old new : List Char) : Nat → Nat → Prop
  | early {n : Nat} (h : n ≤ byteSize before) : Moves before old new n n
  | late (k : Nat) : Moves before old new (byteSize (before ++ enclosed old) + k)
    (byteSize (before ++ enclosed new) + k)

/-- Both places are before the comment. -/
def Early (before : List Char) (n n' : Nat) : Prop := n = n' ∧ n ≤ byteSize before

/-- Both places are after the comment, and equally far. -/
def Late (before old new : List Char) (n n' : Nat) : Prop :=
  ∃ k, n = byteSize (before ++ enclosed old) + k ∧ n' = byteSize (before ++ enclosed new) + k

/-- How two sources are seen from two trees: between places that correspond there is text that is
alike, or none in either. -/
def Sight (hides : List Char → List Char → Prop) (place : Nat → Nat → Prop)
    (source source' : List Char) : Prop :=
  ∀ {n n' m m'}, place n n' → place m m' →
    Option.Rel (Alike hides) (slice? n m source) (slice? n' m' source')

variable {hides : List Char → List Char → Prop} {before old new after : List Char}

theorem rel_refl {α : Type} {r : α → α → Prop} (hr : ∀ x, r x x) (a : Option α) :
    Option.Rel r a a := by
  cases a with
  | none => exact .none
  | some x => exact .some (hr x)

theorem rel_mono {α : Type} {r s : α → α → Prop} {a b : Option α} (h : Option.Rel r a b)
    (hrs : ∀ {x y}, r x y → s x y) : Option.Rel s a b := by
  cases h with
  | none => exact .none
  | some h => exact .some (hrs h)

theorem sight_early (after : List Char) : Sight (fun _ _ => False) (Early before)
    (sourceWith before old after) (sourceWith before new after) := by
  rintro n _ m _ ⟨rfl, -⟩ ⟨rfl, hm⟩
  rw [sourceWith, sourceWith, slice?_append_left hm, slice?_append_left hm]
  exact rel_refl .refl _

theorem sight_late (after : List Char) : Sight (fun _ _ => False) (Late before old new)
    (sourceWith before old after) (sourceWith before new after) := by
  rintro _ _ _ _ ⟨n, rfl, rfl⟩ ⟨m, rfl, rfl⟩
  rw [sourceWith, sourceWith, ← List.append_assoc, ← List.append_assoc, slice?_append_right,
    slice?_append_right]
  exact rel_refl .refl _

theorem slice?_sourceWith {n : Nat} (hn : n ≤ byteSize before) (body after : List Char) (k : Nat) :
    slice? n (byteSize (before ++ enclosed body) + k) (sourceWith before body after)
      = (dropBytes? n before).bind fun ds =>
        (takeBytes? k after).map fun rest => ds ++ (enclosed body ++ rest) := by
  have hle : n ≤ byteSize (before ++ enclosed body) := by
    rw [byteSize_append]
    omega
  rw [sourceWith, ← List.append_assoc, slice?_append_across hle, dropBytes?_append_left hn]
  cases dropBytes? n before with
  | none => rfl
  | some ds => simp

/-- **Between places that have moved with the text there is text that is alike.** -/
theorem sight_moves (hh : hides old new) (after : List Char) : Sight hides (Moves before old new)
    (sourceWith before old after) (sourceWith before new after) := by
  rintro _ _ _ _ hn hm
  have hlt (body : List Char) : byteSize before < byteSize (before ++ enclosed body) := by
    simp only [byteSize_append, enclosed, byteSize_cons]
    have hpos := ('<').utf8Size_pos
    omega
  cases hn with
  | early hn =>
    cases hm with
    | early hm => exact rel_mono (sight_early after ⟨rfl, hn⟩ ⟨rfl, hm⟩) (·.mono False.elim)
    | late k =>
      rw [slice?_sourceWith hn, slice?_sourceWith hn]
      cases dropBytes? _ before with
      | none => exact .none
      | some ds =>
        cases takeBytes? k after with
        | none => exact .none
        | some rest => exact .some ((Alike.refl ds).append ((Alike.refl rest).inComment hh))
  | late j =>
    cases hm with
    | early hm =>
      -- There is no text from a place back to an earlier one.
      have hnone (body : List Char) {m : Nat} (hm : m ≤ byteSize before) (cs : List Char) :
          slice? (byteSize (before ++ enclosed body) + j) m cs = none := by
        have hbody := hlt body
        rw [slice?, if_neg (by omega)]
      rw [hnone old hm, hnone new hm]
      exact .none
    | late k => exact rel_mono (sight_late after ⟨j, rfl, rfl⟩ ⟨k, rfl, rfl⟩) (·.mono False.elim)

end MarkdownPreview.Comment
