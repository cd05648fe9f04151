import MarkdownPreview.Slug.Registry
import MarkdownPreview.Token.Basic

/-!
# Anchors for headings

Every heading from a certain level on gets an `id` to link to: the slug of its text, in the first
variant that is free. A heading that brings its own `id` keeps it, and the name is taken from then
on. Headings are gone through in document order, with the names taken so far (`Slug.Registry`). -/

set_option autoImplicit false

namespace MarkdownPreview.Anchor

open Slug

/-- How anchors are made. -/
structure Settings where
  /-- The least level of heading that gets an anchor. -/
  level : Nat := 1
  /-- Whether headings with a new anchor can take the focus. -/
  tabIndex : Bool := true
  /-- Makes the slug of a heading's text. -/
  slug : String → String := Slug.ofWords

/-- Reads a number below 256 in decimal, which may have a plus sign. -/
def byte? (cs : List Char) : Option Nat :=
  let digits := match cs with
    | '+' :: rest => rest
    | rest => rest
  if digits.isEmpty || digits.any fun c => !c.isDigit then none
  else
    let n := digits.foldl (fun n c => 10 * n + (c.toNat - '0'.toNat)) 0
    if n < 256 then some n else none

/-- The level of a heading, by the number in its tag; 0 if there is none. -/
def levelOf (tag : String) : Nat :=
  match tag.toList with
  | 'h' :: cs => (byte? cs).getD 0
  | _ => 0

/-- Whether a token opens a heading that gets an anchor. -/
def isSelected (s : Settings) (t : Token) : Bool :=
  t.kind == .opening .heading && s.level ≤ levelOf t.tag

/-- The text of a heading, for its slug: its text and code. -/
def title (children : List Token) : String :=
  String.join ((children.filter fun t => t.kind == .text || t.kind == .codeInline).map (·.content))

def withId (s : Settings) (t : Token) (id : String) : Token :=
  let t := t.setAttr "id" id
  if s.tabIndex then t.setAttr "tabindex" "-1" else t

/-- Gives the headings of a document their anchors. -/
def addAll (s : Settings) : List Token → Registry → List Token × Registry
  | [], taken => ([], taken)
  | t :: ts, taken =>
    if isSelected s t then
      match t.attrs.get? "id" with
      | some id =>
        let (rest, taken) := addAll s ts (taken.reserve id)
        (t :: rest, taken)
      | none =>
        let text := title ((ts.head?.map Token.inner).getD [])
        let (id, taken) := taken.unique (s.slug text)
        let (rest, taken) := addAll s ts taken
        (withId s t id :: rest, taken)
    else
      let (rest, taken) := addAll s ts taken
      (t :: rest, taken)

end MarkdownPreview.Anchor
