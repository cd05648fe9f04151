import MarkdownPreview.Token.Size
import MarkdownPreview.Walk.Basic

/-!
# Scripted walks

A script says what a visitor does on which visit of a walk; on all others it only looks. Running a
script gives the tree after the walk and a trace of all visits. If its edits bring no tokens into
the tree, such a walk always ends, since each part of a script is run once; `Script.bound` bounds
its length. -/

set_option autoImplicit false

namespace MarkdownPreview

/-- What to do on one visit; visits are counted from 0 over the whole walk. -/
structure Script.Cue where
  visit : Nat
  actions : List (Cursor.Action Token)

/-- What a visitor does, and on which visits. -/
abbrev Script : Type := List Script.Cue

/-- One visit of a walk: the cursor it began with and, if anything was done, what came of it and the
cursor at its end. -/
structure Script.Visit where
  before : Cursor Token
  done? : Option (List (Cursor.Outcome Token) × Cursor Token)

namespace Script

def actionsAt (script : Script) (visit : Nat) : List (Cursor.Action Token) :=
  (script.filter (·.visit = visit)).flatMap (·.actions)

/-- The visitor that follows a script. Its state is the visits so far, newest first. -/
def visitor (script : Script) : Visitor (List Visit) := fun trace c =>
  match script.actionsAt trace.length with
  | [] => (⟨c, none⟩ :: trace, c)
  | actions =>
    let (outcomes, after) := c.performAll actions
    (⟨c, some (outcomes, after)⟩ :: trace, after)

/-- The number of tokens an action can bring into the tree, edits apart. -/
def broughtIn : Cursor.Action Token → Nat
  | .replace t => t.size
  | .splice _ _ insert => levelSize insert
  | .insertAfter t => t.size
  | _ => 0

/-- A bound on the length of a walk of `ts`: between two actions no token is visited twice, and no
more tokens are ever there than the tree has and the actions bring in. -/
def bound (script : Script) (ts : List Token) : Nat :=
  let actions := script.flatMap (·.actions)
  let tokens := actions.foldr (fun a n => broughtIn a + n) (levelSize ts)
  2 * (actions.length + 1) * (tokens + 1) + 2

/-- Walks a tree as a script says; returns the visits in order and the tree after the walk. -/
def run (script : Script) (direction : Direction) (ts : List Token) :
    Option (List Visit × List Token) :=
  (walk direction script.visitor (script.bound ts) [] ts).map fun (trace, ts) =>
    (trace.reverse, ts)

end Script

end MarkdownPreview
