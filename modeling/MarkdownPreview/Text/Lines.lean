import MarkdownPreview.Text.Blank

/-!
# Lines

A line ends at a line feed, at a carriage return, or at the two together. `normalizeBreaks` writes
all three as a line feed; `lines` then cuts at line feeds, and `joinLines` puts them back.
-/

set_option autoImplicit false

namespace MarkdownPreview.Text

/-- The text with every `\r\n` and every other `\r` written as `\n`. -/
def normalizeBreaks : List Char → List Char
  | [] => []
  | '\r' :: '\n' :: cs => '\n' :: normalizeBreaks cs
  | c :: cs => (if c = '\r' then '\n' else c) :: normalizeBreaks cs

/-- The stretches between line feeds; a text that ends in one has an empty last line. -/
def lines (cs : List Char) : List (List Char) := fields (· == '\n') cs

/-- The lines with a line feed between each two of them. -/
def joinLines (ls : List (List Char)) : List Char := ['\n'].intercalate ls

end MarkdownPreview.Text
