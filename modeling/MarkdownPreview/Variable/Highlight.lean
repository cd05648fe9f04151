import MarkdownPreview.Prose.Escape
import MarkdownPreview.Token.Basic
import MarkdownPreview.Variable.Basic

/-!
# Highlighting the variables of a document

Text and code that hold a variable become finished HTML in which the variables are highlights.

Where superscripts are recognised, the carets of a variable's two marks have been read as the
carets of a raised run: `a<`, a raised `>name<`, and `>b` are what is left of the marks. `rejoin`
puts such a run together again. One run's last text may be the first of the next, so the runs are
taken one after the other. -/

set_option autoImplicit false

namespace MarkdownPreview.Variable

/-- The name in a raised text that lies between two marks taken apart. -/
def raisedName? (text : String) : Option String :=
  match text.toList with
  | '>' :: rest =>
    match rest.reverse with
    | '<' :: name => if name.contains '\n' then none else some (String.ofList name.reverse)
    | _ => none
  | _ => none

/-- The name in a raised run, if its five tokens are the two texts around a variable, the raised
text and the two tokens that raise it. -/
def takenApart? (before up raised down after : Token) : Option String :=
  if before.kind = .text ∧ up.kind = .opening .sup ∧ raised.kind = .text
      ∧ down.kind = .closing .sup ∧ after.kind = .text then
    raisedName? raised.content
  else none

def dropLastBracket (text : String) : String :=
  match text.toList.reverse with
  | '<' :: rest => String.ofList rest.reverse
  | _ => text

def dropFirstBracket (text : String) : String :=
  match text.toList with
  | '>' :: rest => String.ofList rest
  | _ => text

/-- Finished HTML for a raised name. -/
def raisedHtml (name : String) : Token := Token.html (span (Prose.escape name))

/-- Puts the variables together that superscripts have taken apart, in the token `before` and those
after it. -/
def rejoinFrom (before : Token) : List Token → List Token
  | up :: rest@(raised :: down :: after :: ts) =>
    match takenApart? before up raised down after with
    | some name =>
      { before with content := dropLastBracket before.content } :: raisedHtml name
        :: rejoinFrom { after with content := dropFirstBracket after.content } ts
    | none => before :: rejoinFrom up rest
  | ts => before :: ts

/-- Puts the variables together that superscripts have taken apart. -/
def rejoin : List Token → List Token
  | [] => []
  | t :: ts => rejoinFrom t ts

/-- Text or code as finished HTML with its variables highlighted: text only if it has one, code
always. -/
def highlightToken (t : Token) : Token :=
  match t.kind with
  | .text =>
    if occurs t.content then Token.html (highlight Prose.escape Prose.escape t.content) else t
  | .codeInline =>
    Token.html ("<code>" ++ highlight Html.escape Html.escape t.content ++ "</code>")
  | _ => t

/-- Highlights the variables of one level; `parent?` is the kind of token the level belongs to. -/
def highlightLevel (parent? : Option Kind) (ts : List Token) : List Token :=
  (if parent? = some .inline then rejoin ts else ts).map highlightToken

def highlightAll (ts : List Token) : List Token := mapLevels highlightLevel ts

end MarkdownPreview.Variable
