import MarkdownPreview.Comment.Within
import MarkdownPreview.Token.Size

/-!
# Taking comments out of a document

Where HTML is not parsed, a comment is text like any other, and may start in one block and end in a
later one. What lies between `<!--` and `-->` is taken out, be it part of a text, several tokens of
one block, or several blocks; the text before and after stays. Tokens go only if that does not part
them from a partner that stays (`MarkdownPreview.Token.Pairing`).

A level is gone through from its first token to its last, and then the levels below it. Of its
tokens only `inline` ones are looked at, and of these only those whose content holds a `<!--`:

1. comments between the texts of the block are taken out (`MarkdownPreview.Comment.Within`);
2. if nothing but comments is in the block, it goes (`takeOutBlock`);
3. if a comment is left open, everything goes up to the block that ends it (`takeOutAcross`).
-/

set_option autoImplicit false

namespace MarkdownPreview.Comment

def isAt (ts : List Token) (i : Nat) (kind : Kind) : Bool := ts[i]?.any fun t => t.kind == kind

def isBefore (ts : List Token) (i : Nat) (kind : Kind) : Bool := i != 0 && isAt ts (i - 1) kind

/-! ## One block -/

/-- Takes out the block at `i`, and the paragraph's tokens if they stand around it alone. A level is
never emptied. Returns the level and the place of the next token to look at. -/
def takeOutBlock (ts : List Token) (i : Nat) : List Token × Nat :=
  let (start, count) :=
    if isBefore ts i (.opening .paragraph) && isAt ts (i + 1) (.closing .paragraph) then (i - 1, 3)
    else (i, 1)
  if count ≥ ts.length then (ts, i + 1)
  else (ts.take start ++ ts.drop (start + count), start)

/-! ## Several blocks -/

/-- Whether a token is a block's text in which a comment may end. -/
def endsAcross (t : Token) : Bool := t.kind == .inline && hasEnd (readable t)

/-- The range of tokens that a comment covers: `head` is what stays of the block at `i` where it
starts, `tail` what stays of the block at `j` where it ends. A block of which nothing stays is in
the range itself, with its paragraph's token on that side. -/
def coveredRange (ts : List Token) (i j : Nat) (head tail : String) : Nat × Nat :=
  let start :=
    if !head.isEmpty then i + 1
    else if isBefore ts i (.opening .paragraph) then i - 1
    else i
  let stop :=
    if !tail.isEmpty then j
    else if isAt ts (j + 1) (.closing .paragraph) then j + 2
    else j + 1
  (start, stop)

/-- Cuts the block in which a comment starts, unless nothing stays of it. -/
def cutHead (head : String) (t : Token) : Token :=
  if head.isEmpty then t
  else { t with content := head, children := t.children.map childrenBefore }

/-- Cuts the block in which a comment ends, unless nothing stays of it. -/
def cutTail (tail : String) (t : Token) : Token :=
  if tail.isEmpty then t
  else { t with content := tail, children := t.children.map childrenAfter }

/-- Takes out what a comment covers that starts in the block at `i`, whose text is `text`. Returns
the level and the place of the next token to look at; nothing happens to a comment that does not
end. -/
def takeOutAcross (ts : List Token) (i : Nat) (text : String) : List Token × Nat :=
  match placeFrom? endsAcross (i + 1) ts with
  | none => (ts, i + 1)
  | some j =>
    let head := trimmedEnd (headOf text)
    let tail := trimmedStart ((ts[j]?.map fun t => tailOf (readable t)).getD "")
    let (start, stop) := coveredRange ts i j head tail
    let ps := pairs ts
    let stays := fun (t : Token) (k : Nat) => !canGo ps start stop t k
    let cut := (ts.modify j (cutTail tail)).modify i (cutHead head)
    (filterPlaces stays cut, (filterPlaces stays (ts.take (i + 1))).length)

/-! ## A level and a document -/

/-- Looks at the token at `i`. Returns the level and the place of the next token to look at. -/
def visit (ts : List Token) (i : Nat) : List Token × Nat :=
  match ts[i]? with
  | none => (ts, i + 1)
  | some t =>
    if t.kind = .inline ∧ hasStart (readable t) = true then
      let t := closeUpToken t
      let ts := ts.set i t
      let text := readable t
      if (trimmedEnd (remove text)).isEmpty then takeOutBlock ts i
      else if isDangling text then takeOutAcross ts i text
      else (ts, i + 1)
    else (ts, i + 1)

/-- Looks at the tokens from place `i` on, at most `steps` of them. -/
def levelFrom : (steps i : Nat) → List Token → List Token
  | 0, _, ts => ts
  | steps + 1, i, ts =>
    let (ts, next) := visit ts i
    levelFrom steps next ts

/-- Takes the comments out of a level. No visit leaves more tokens to look at than before, less the
one it looked at, so there are no more visits than tokens. -/
def removeFromLevel (ts : List Token) : List Token := levelFrom ts.length 0 ts

/-- Takes the comments out of a level and of `depth` levels below it. -/
def removeTo : (depth : Nat) → List Token → List Token
  | 0, ts => removeFromLevel ts
  | depth + 1, ts =>
    (removeFromLevel ts).map fun t => { t with children := t.children.map (removeTo depth) }

def removeAll (ts : List Token) : List Token := removeTo (levelDepth ts) ts

end MarkdownPreview.Comment
