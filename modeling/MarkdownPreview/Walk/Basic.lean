import MarkdownPreview.Token.Basic
import MarkdownPreview.Walk.Cursor

/-!
# Walking a token tree

A walk visits the tokens of a level one after the other, each before its children, from the first
to the last or the other way round. A visitor may change the level it is in through its cursor; the
walk then goes on behind the token that was visited, or in the gap it left, or where the visitor
asked it to. The children that are walked are those of the token the visitor left in place.

A visitor can keep a walk going for ever, by putting in new tokens or by going back. So a walk is
given a bound on its length, and its result is `none` if it is still going on there.
-/

set_option autoImplicit false

namespace MarkdownPreview

universe u

/-- The order in which the tokens of a level are visited. -/
inductive Direction where
  | forward
  | backward
  deriving DecidableEq, Repr

/-- The last place of a level, unless it is empty. -/
def lastPlace? (ts : List Token) : Option Nat := if ts.isEmpty then none else some (ts.length - 1)

def Direction.first? : Direction → List Token → Option Nat
  | .forward, _ => some 0
  | .backward, ts => lastPlace? ts

/-- The place where a walk goes on after a visit, unless it is over. -/
def Cursor.next? (c : Cursor Token) (direction : Direction) : Option Nat :=
  match c.resume?, direction with
  | some index, _ => some index
  | none, .forward => some (if c.removed then c.index else c.index + 1)
  | none, .backward => if c.index = 0 then none else some (c.index - 1)

/-- A visitor sees a cursor and hands it back; it may keep a state of its own. -/
abbrev Visitor (σ : Type u) : Type u := σ → Cursor Token → σ × Cursor Token

/-- Walks a level from a place on, in at most `steps` steps on any way down the tree. -/
def walkFrom {σ : Type u} (direction : Direction) (visit : Visitor σ) :
    (steps : Nat) → σ → Option Nat → List Token → Option (σ × List Token)
  | _, s, none, ts => some (s, ts)
  | 0, _, some _, _ => none
  | steps + 1, s, some index, ts =>
    if index < ts.length then
      let (s, c) := visit s { level := ts, index }
      match c.current?.bind (·.children) with
      | none => walkFrom direction visit steps s (c.next? direction) c.level
      | some children =>
        match walkFrom direction visit steps s (direction.first? children) children with
        | none => none
        | some (s, children) =>
          walkFrom direction visit steps s (c.next? direction)
            (c.level.modify c.index fun t => { t with children := some children })
    else
      match direction with
      | .forward => some (s, ts)
      | .backward => walkFrom direction visit steps s (lastPlace? ts) ts

def walk {σ : Type u} (direction : Direction) (visit : Visitor σ) (steps : Nat) (s : σ)
    (ts : List Token) : Option (σ × List Token) :=
  walkFrom direction visit steps s (direction.first? ts) ts

end MarkdownPreview
