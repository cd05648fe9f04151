import MarkdownPreview.Text.Blank
import MarkdownPreview.Text.Scan
import MarkdownPreview.Token.Basic

/-!
# Superscripts

In running text, `^x^` raises `x`. What is raised is not empty and has no blanks in it; a caret that
does not open such a run is an ordinary character, and so may be the next one's partner.
-/

set_option autoImplicit false

namespace MarkdownPreview.Markdown

open Text

/-- Recognises a raised run and reads what is raised. -/
def raised : Recogniser Char (List Char)
  | _, '^' :: cs =>
    let body := cs.takeWhile (· != '^')
    match cs.dropWhile (· != '^') with
    | [] => none
    | _ => if body.isEmpty || body.any isBlank then none else some ⟨body, body.length + 1⟩
  | _, _ => none

/-- The text token of a stretch, none if it is empty. -/
def plainText (cs : List Char) : List Token :=
  if cs.isEmpty then [] else [Token.text (String.ofList cs)]

def raisedTokens (body : List Char) : List Token :=
  [Token.spanOpening .sup "sup" "^", Token.text (String.ofList body),
    Token.spanClosing .sup "sup" "^"]

/-- The tokens of a text with its raised runs. -/
def raiseText (text : String) : List Token :=
  let p := pieces raised text.toList
  plainText p.first ++ p.rest.flatMap fun (body, after) => raisedTokens body ++ plainText after

/-- Splits the raised runs out of the text tokens that have a caret. -/
def raiseAll (ts : List Token) : List Token :=
  ts.flatMap fun t =>
    if t.kind = .text ∧ '^' ∈ t.content.toList then raiseText t.content else [t]

end MarkdownPreview.Markdown
