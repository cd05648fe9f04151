import MarkdownPreview.Token.Basic

/-!
# Which tokens belong together

Within one level, an opening token and the closing token that answers it are partners. A closing
token answers the last opening one that has not been answered yet, as told by their nesting alone;
what they open and close is not looked at. Tokens are named by their place in the level.

Taking tokens out of a level must not part two partners. `canGo` says which tokens of a range
can go: those that have no partner, and those whose partner lies in the range too. `removeWithin`
takes just these out, and `keepPaired` takes out what has lost its partner.
-/

set_option autoImplicit false

namespace MarkdownPreview

/-- The partners among the tokens from place `i` on, where the places in `unanswered` still wait for
an answer, the last one first. -/
def pairsFrom : (i : Nat) → (unanswered : List Nat) → List Token → List (Nat × Nat)
  | _, _, [] => []
  | i, unanswered, t :: ts =>
    match t.nesting, unanswered with
    | .opening, _ => pairsFrom (i + 1) (i :: unanswered) ts
    | .closing, j :: rest => (j, i) :: pairsFrom (i + 1) rest ts
    | .closing, [] => pairsFrom (i + 1) [] ts
    | .selfClosing, _ => pairsFrom (i + 1) unanswered ts

def pairs (ts : List Token) : List (Nat × Nat) := pairsFrom 0 [] ts

def partner? (ps : List (Nat × Nat)) (i : Nat) : Option Nat :=
  ps.findSome? fun (a, b) => if a = i then some b else if b = i then some a else none

/-- Whether a token of the range from `start` up to `stop` can go without parting it from its
partner. -/
def canGo (ps : List (Nat × Nat)) (start stop : Nat) (t : Token) (i : Nat) : Bool :=
  start ≤ i && i < stop && (t.nesting == .selfClosing || match partner? ps i with
    | none => true
    | some j => start ≤ j && j < stop)

/-- The tokens of a level that satisfy `keep`, which is also told their places. -/
def filterPlaces (keep : Token → Nat → Bool) (ts : List Token) : List Token :=
  (ts.zipIdx.filter fun (t, i) => keep t i).map Prod.fst

/-- The level without those tokens of a range that can go. -/
def removeWithin (start stop : Nat) (ts : List Token) : List Token :=
  let ps := pairs ts
  filterPlaces (fun t i => !canGo ps start stop t i) ts

/-- The level without the opening and closing tokens that have no partner. -/
def keepPaired (ts : List Token) : List Token :=
  let ps := pairs ts
  filterPlaces (fun t i => t.nesting == .selfClosing || (partner? ps i).isSome) ts

end MarkdownPreview
