/-!
# Scanning a list from left to right

A *recogniser* looks at a place in a list and says whether something starts there: it returns a
`Hit`, the value it read and how many elements the match covers after its first one. So a match
covers at least one element, and a scan always moves on.

`scan` asks the recogniser at every place from the left and skips what a hit covers. Its result is
the list again, cut into the elements that no hit covers and the hits, in order. Everything that
searches or changes text is read off that one list: `replace` puts text in the place of the hits,
`erase` leaves them out, `pieces` gathers what lies between them, `occurs` asks whether there is
one.

`cut?` is the plain search for a fixed stretch of elements.
-/

set_option autoImplicit false

namespace MarkdownPreview.Text

universe u v

/-- What a recogniser found: a value, and the number of elements the match covers beyond the one
it starts with. -/
structure Hit (β : Type v) where
  value : β
  more : Nat
  deriving Repr, DecidableEq

/-- A recogniser sees the rest of the list from one place on, and is told whether that place is
the start of the whole list. -/
abbrev Recogniser (α : Type u) (β : Type v) : Type (max u v) := Bool → List α → Option (Hit β)

variable {α : Type u} {β : Type v}

/-- The scan from a place on, where `skip` elements still belong to the last hit. -/
def scanFrom (m : Recogniser α β) : Bool → Nat → List α → List (α ⊕ β)
  | _, _, [] => []
  | _, skip + 1, _ :: xs => scanFrom m false skip xs
  | atStart, 0, x :: xs =>
    match m atStart (x :: xs) with
    | some hit => .inr hit.value :: scanFrom m false hit.more xs
    | none => .inl x :: scanFrom m false 0 xs

/-- The elements that no match covers and the values of the matches, in order. Matches are taken
from the left and do not overlap. -/
def scan (m : Recogniser α β) (xs : List α) : List (α ⊕ β) := scanFrom m true 0 xs

/-- The list with every match replaced by the elements the recogniser read for it. -/
def replace (m : Recogniser α (List α)) (xs : List α) : List α :=
  (scan m xs).flatMap (Sum.elim (fun x => [x]) id)

/-- The list with every match left out. -/
def erase (m : Recogniser α β) (xs : List α) : List α :=
  (scan m xs).filterMap Sum.getLeft?

/-- Whether there is a match anywhere. -/
def occurs (m : Recogniser α β) (xs : List α) : Bool := (scan m xs).any Sum.isRight

/-! ## Matches and what lies between them -/

/-- A list taken apart at its matches: what stands before the first one, and each match with what
stands between it and the next. -/
structure Pieces (α : Type u) (β : Type v) where
  first : List α
  rest : List (β × List α)
  deriving Repr

/-- Gathers the elements of a scan into the stretches between its matches. -/
def Pieces.ofScan : List (α ⊕ β) → Pieces α β
  | [] => ⟨[], []⟩
  | .inl x :: xs =>
    let p := ofScan xs
    ⟨x :: p.first, p.rest⟩
  | .inr b :: xs =>
    let p := ofScan xs
    ⟨[], (b, p.first) :: p.rest⟩

/-- The matches of a recogniser and the stretches between them. -/
def pieces (m : Recogniser α β) (xs : List α) : Pieces α β := Pieces.ofScan (scan m xs)

/-! ## Searching for a fixed stretch -/

/-- What stands before and after the first place where `mark` occurs. `mark` is not empty where
this is used; an empty one is found before the first element, if there is one. -/
def cut? [BEq α] (mark : List α) : List α → Option (List α × List α)
  | [] => none
  | x :: xs =>
    match mark.isPrefixOf? (x :: xs) with
    | some rest => some ([], rest)
    | none => (cut? mark xs).map fun (before, after) => (x :: before, after)

/-- Recognises a fixed stretch of elements and reads `value` for it; an empty stretch is never
recognised. -/
def exactly [BEq α] (mark : List α) (value : β) : Recogniser α β := fun _ xs =>
  match mark with
  | [] => none
  | _ :: more => if mark.isPrefixOf xs then some ⟨value, more.length⟩ else none

end MarkdownPreview.Text
