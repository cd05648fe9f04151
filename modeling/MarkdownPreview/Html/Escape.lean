import MarkdownPreview.Text.Scan
import MarkdownPreview.Html.Entity

/-!
# Escaping for HTML

Three ways to write a character so that it cannot act as markup:

* `bracketChar` writes `&`, `<` and `>` as references, which is what text between tags needs;
* `attrChar` also writes `"` as a reference, which is what a quoted attribute value needs;
* `codeChar` is the first with tabs widened to four spaces, for code samples.

`escape` and `escapeCode` write a text character by character; running prose has its own escaper
(`MarkdownPreview.Prose`). `readBrackets` reads `&lt;` and `&gt;` back, and nothing else.
-/

set_option autoImplicit false

namespace MarkdownPreview.Html

open Text

/-- The reference a character of text has to be written as, if it needs one. -/
def bracketEntity? : Char → Option Entity
  | '&' => some .amp
  | '<' => some .lt
  | '>' => some .gt
  | _ => none

/-- A character of text. -/
def bracketChar (c : Char) : List Char :=
  match bracketEntity? c with
  | some e => e.chars
  | none => [c]

/-- A character of a quoted attribute value. -/
def attrChar (c : Char) : List Char := if c = '"' then Entity.quot.chars else bracketChar c

/-- A character of a code sample. -/
def codeChar (c : Char) : List Char :=
  if c = '\t' then [' ', ' ', ' ', ' '] else bracketChar c

/-- Escapes `&`, `<`, `>` and `"`. -/
def escape (text : String) : String := String.ofList (text.toList.flatMap attrChar)

/-- Escapes `&`, `<` and `>` and widens tabs to four spaces. -/
def escapeCode (text : String) : String := String.ofList (text.toList.flatMap codeChar)

/-- Turns `&lt;` and then `&gt;` back into angle brackets. -/
def readBrackets (text : String) : String :=
  let opened := replace (exactly Entity.lt.chars ['<']) text.toList
  String.ofList (replace (exactly Entity.gt.chars ['>']) opened)

end MarkdownPreview.Html
