import MarkdownPreview.Comment.Text
import MarkdownPreview.Prose.Quotes

/-!
# Running text as HTML

`escape` is the whole way from a stretch of running text to HTML: comments that lie on one line are
dropped, `&`, `<` and `>` become references, quotes are set, and `(R)`, `(C)` and `(TM)` become
signs. The result is finished HTML and must not be escaped again.
-/

set_option autoImplicit false

namespace MarkdownPreview.Prose

open Text

/-- A letter between parentheses, in either case, is the sign `sign`. -/
def letterSign (letter : Char) (sign : Html.Entity) : Pass
  | _, .char '(' :: .char c :: .char ')' :: _ =>
    if c.toLower = letter then some ⟨[.entity sign], 2⟩ else none
  | _, _ => none

/-- The letters `(TM)`, in any case, are the trade mark sign. -/
def tradeMark : Pass
  | _, .char '(' :: .char t :: .char m :: .char ')' :: _ =>
    if t.toLower = 't' ∧ m.toLower = 'm' then some ⟨[.entity .trade], 3⟩ else none
  | _, _ => none

/-- Sets the signs that are written with letters in parentheses. -/
def setSigns (gs : List Glyph) : List Glyph :=
  gs |> replace (letterSign 'r' .reg)
    |> replace (letterSign 'c' .copy)
    |> replace tradeMark

/-- The glyphs of a stretch of running text, with quotes and signs set. -/
def glyphs (text : String) : List Glyph :=
  setSigns (setQuotes (Glyph.ofText (Comment.removeOnLine text).toList))

/-- A stretch of running text as HTML. -/
def escape (text : String) : String := String.ofList ((glyphs text).flatMap Glyph.chars)

end MarkdownPreview.Prose
