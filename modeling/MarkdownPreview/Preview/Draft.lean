import MarkdownPreview.Heading.Anchor

/-!
# A document between two rules

The rules of a preview change a document one after the other. What one leaves for the next is the
tokens and the names its headings have taken (`Draft`); what all of them are told is the same
(`Conditions`).

An extension brings a step of its own, under a name. The anchors of headings are one.
-/

set_option autoImplicit false

namespace MarkdownPreview

/-- A document on its way through the rules. -/
structure Draft where
  tokens : List Token
  /-- The names taken by headings. -/
  slugs : Slug.Registry := {}

/-- What rules are told about a preview. -/
structure Conditions where
  /-- Whether HTML in the source is parsed. -/
  html : Bool
  /-- Whether blank lines are put between blocks. -/
  spaced : Bool
  deriving DecidableEq, Repr

/-- A step that comes with a name. -/
structure Extension where
  name : String
  run : Draft → Draft

/-- The extension that gives headings anchors. -/
def Anchor.extension (s : Settings) : Extension where
  name := "anchor"
  run d :=
    let (tokens, slugs) := addAll s d.tokens d.slugs
    { tokens, slugs }

end MarkdownPreview
