import MarkdownPreview.Text.Blank
import MarkdownPreview.Html.Escape

/-!
# Running text as glyphs

A glyph is a character or a character reference. While running text is being set, a reference is one
thing: no later step can see into it, cut it or escape it again. `ofText` makes glyphs of a text,
with `&`, `<` and `>` as references from the start, so that no glyph is one of these characters;
`chars` writes glyphs out.
-/

set_option autoImplicit false

namespace MarkdownPreview.Prose

open Html

/-- A character of running text, or a reference that stands for one. -/
inductive Glyph where
  | char (c : Char)
  | entity (e : Entity)
  deriving DecidableEq, Repr

namespace Glyph

def ofChar (c : Char) : Glyph :=
  match bracketEntity? c with
  | some e => .entity e
  | none => .char c

def ofText (cs : List Char) : List Glyph := cs.map ofChar

def chars : Glyph → List Char
  | .char c => [c]
  | .entity e => e.chars

def isBlank : Glyph → Bool
  | .char c => Text.isBlank c
  | .entity _ => false

/-- Whether the glyph parts two words for the purpose of setting quotes: a space or a line break,
but no other blank. -/
def isGap : Glyph → Bool
  | .char c => c == ' ' || c == '\r' || c == '\n'
  | .entity _ => false

end Glyph

def ldquo : Glyph := .entity .ldquo

def rdquo : Glyph := .entity .rdquo

def lsquo : Glyph := .entity .lsquo

def rsquo : Glyph := .entity .rsquo

/-- The straight double quote, as a glyph. -/
def straight : Glyph := .char '"'

end MarkdownPreview.Prose
