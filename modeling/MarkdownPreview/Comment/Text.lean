import MarkdownPreview.Text.Scan

/-!
# Comments in a text

A comment runs from `<!--` to the first `-->` after it. `remove` takes every complete comment out
of a text, from the left. What is left may still hold a `<!--`: one that no `-->` follows, or one
that only came about when the text around a comment closed up. The text then ends in a *dangling*
comment; `beforeDangling?` finds the first such mark and gives the text before it.

Running prose drops only those comments that end on the line they start on (`removeOnLine`).
-/

set_option autoImplicit false

namespace MarkdownPreview.Comment

open MarkdownPreview.Text

def startMark : List Char := ['<', '!', '-', '-']

def endMark : List Char := ['-', '-', '>']

/-- Recognises a comment all of whose characters between its marks satisfy `inside`. -/
def commentOf (inside : Char → Bool) : Recogniser Char Unit := fun _ cs =>
  match startMark.isPrefixOf? cs with
  | none => none
  | some rest =>
    match cut? endMark rest with
    | none => none
    | some (body, _) => if body.all inside then some ⟨(), body.length + 6⟩ else none

def anyComment : Recogniser Char Unit := commentOf fun _ => true

def lineComment : Recogniser Char Unit := commentOf (· != '\n')

/-- The text without its complete comments. -/
def remove (text : String) : String := String.ofList (erase anyComment text.toList)

/-- The text without those complete comments that lie on one line. -/
def removeOnLine (text : String) : String := String.ofList (erase lineComment text.toList)

def hasStart (text : String) : Bool := (cut? startMark text.toList).isSome

def hasEnd (text : String) : Bool := (cut? endMark text.toList).isSome

/-- The text before the first comment that is left open, without the complete ones; `none` if no
comment is left open. -/
def beforeDangling? (text : String) : Option String :=
  (cut? startMark (remove text).toList).map fun (before, _) => String.ofList before

/-- Whether a comment is left open. -/
def isDangling (text : String) : Bool := (beforeDangling? text).isSome

/-- The text after the first end of a comment. -/
def afterEnd? (text : String) : Option String :=
  (cut? endMark text.toList).map fun (_, after) => String.ofList after

end MarkdownPreview.Comment
