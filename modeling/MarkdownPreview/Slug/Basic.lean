import MarkdownPreview.Text.Blank
import MarkdownPreview.Text.Lowercase
import MarkdownPreview.Text.Scan

/-!
# Slugs

A slug is the form of a heading that can stand in a link. There are two ways to make one:

* `ofHeading` writes `&`, `"` and `'` as codes, drops other punctuation, and joins what is left with
  single dashes. Its steps run in a fixed order, because each makes or removes characters that a
  later one looks at;
* `ofWords` joins the words of the heading in lower case with dashes and drops nothing.

`MarkdownPreview.Slug.Registry` keeps the slugs of one document apart.
-/

set_option autoImplicit false

namespace MarkdownPreview.Slug

open Text

/-- What a slug has in the place of a character: a code, nothing, or the character. -/
def codeOf (c : Char) : List Char :=
  if c = '&' then ['-', 'a', 'm', 'p']
  else if c = '"' then ['-', 'q', 'u', 'o', 't']
  else if c = '\'' then ['-', '3', '9']
  else [c]

/-- The punctuation that a slug drops. -/
def dropped : List Char := ['!', '@', '#', '$', '%', '^', '*', '(', ')', '+', '=', '~', '`']

/-- Runs of dashes become one dash. -/
def collapseDashes : List Char → List Char
  | '-' :: '-' :: cs => collapseDashes ('-' :: cs)
  | c :: cs => c :: collapseDashes cs
  | [] => []

/-- A title without punctuation: with codes, without what is dropped, and with a dash for a dash
between spaces. -/
def bare (cs : List Char) : List Char :=
  replace (exactly [' ', '-', ' '] ['-'])
    ((cs.flatMap codeOf).filter fun c => !dropped.contains c)

/-- Text with single dashes for its spaces and dashes. -/
def dashed (cs : List Char) : List Char :=
  collapseDashes (cs.map fun c => if c = ' ' then '-' else c)

def headingChars (cs : List Char) : List Char := dashed (lowercase (bare cs))

/-- The slug of a heading: coded, stripped of punctuation, in lower case, with single dashes for
spaces. -/
def ofHeading (title : String) : String := String.ofList (headingChars title.toList)

/-- The words of a title in lower case, joined with dashes. -/
def ofWords (title : String) : String :=
  String.ofList (['-'].intercalate (words (lowercase (trim title.toList))))

end MarkdownPreview.Slug
