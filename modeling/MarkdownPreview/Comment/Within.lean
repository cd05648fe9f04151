import MarkdownPreview.Comment.Text
import MarkdownPreview.Html.Escape
import MarkdownPreview.Text.Blank
import MarkdownPreview.Token.Pairing

/-!
# Comments within one block

The text of a block is a sequence of tokens, and a comment may start in one text token and end in a
later one. It is taken out with the tokens between the two, as far as that does not part tokens that
belong together (`MarkdownPreview.Token.Pairing`). Taking one comment out may leave another, so this
goes on until there is none (`closeUp`); each time characters are lost, so it comes to an end.

The other way to cut the text of a block is at one end: up to a comment that a later block ends
(`childrenBefore`), or from the end of a comment on that an earlier block has started
(`childrenAfter`).

An angle bracket counts also if it is written as a reference (`readable`).
-/

set_option autoImplicit false

namespace MarkdownPreview.Comment

/-- The content of a token with its angle brackets as characters. -/
def readable (t : Token) : String := Html.readBrackets t.content

/-- Whether a token is text in which a comment is left open. -/
def opensComment (t : Token) : Bool := t.kind == .text && isDangling (readable t)

/-- Whether a token is text in which a comment may end. -/
def closesComment (t : Token) : Bool := t.kind == .text && hasEnd (readable t)

/-- What stays of a text before a comment that is left open. -/
def headOf (text : String) : String := (beforeDangling? text).getD ""

/-- What stays of a text after the end of a comment. -/
def tailOf (text : String) : String := (afterEnd? text).getD ""

def trimmedEnd (text : String) : String := String.ofList (Text.trimEnd text.toList)

def trimmedStart (text : String) : String := String.ofList (Text.trimStart text.toList)

/-- The place of the first token from `start` on that satisfies `p`. -/
def placeFrom? (p : Token → Bool) (start : Nat) (ts : List Token) : Option Nat :=
  ((ts.drop start).findIdx? p).map (· + start)

/-! ## A comment from one text to a later one -/

/-- Takes out the first comment that starts in one text and ends in a later one. -/
def closeUpOnce? (ts : List Token) : Option (List Token) := do
  let i ← placeFrom? opensComment 0 ts
  let j ← placeFrom? closesComment (i + 1) ts
  let headCut := ts.modify i fun t => { t with content := headOf (readable t) }
  let bothCut := headCut.modify j fun t => { t with content := tailOf (readable t) }
  return removeWithin (i + 1) j bothCut

/-- Takes out at most `steps` comments that start in one text and end in a later one. -/
def closeUpIn : (steps : Nat) → List Token → List Token
  | 0, ts => ts
  | steps + 1, ts =>
    match closeUpOnce? ts with
    | some rest => closeUpIn steps rest
    | none => ts

def contentSize : List Token → Nat
  | [] => 0
  | t :: ts => t.content.length + contentSize ts

/-- Takes out all comments that start in one text and end in a later one. Each of them takes
characters with it, so there are no more of them than characters. -/
def closeUp (ts : List Token) : List Token := closeUpIn (contentSize ts) ts

/-- A block's token without the comments between its texts; its content follows suit. -/
def closeUpToken (t : Token) : Token :=
  match t.children with
  | none => t
  | some ts =>
    if (closeUpOnce? ts).isSome then
      { t with content := remove (readable t), children := some (closeUp ts) }
    else t

/-! ## One end of a comment -/

/-- Whether a token shows nothing: a line break or an empty text. -/
def showsNothing (t : Token) : Bool :=
  match t.kind with
  | .softbreak | .hardbreak => true
  | .text => t.content.isEmpty
  | _ => false

/-- The children of a block up to the comment that is left open in them. -/
def childrenBefore (ts : List Token) : List Token :=
  match placeFrom? opensComment 0 ts with
  | none => ts
  | some i =>
    let headCut := ts.modify i fun t => { t with content := trimmedEnd (headOf (readable t)) }
    keepPaired (Text.dropEndWhile showsNothing (headCut.take (i + 1)))

/-- The children of a block from the end of a comment on. -/
def childrenAfter (ts : List Token) : List Token :=
  match placeFrom? closesComment 0 ts with
  | none => ts
  | some i =>
    let tailCut := ts.modify i fun t => { t with content := trimmedStart (tailOf (readable t)) }
    keepPaired ((tailCut.drop i).dropWhile showsNothing)

end MarkdownPreview.Comment
