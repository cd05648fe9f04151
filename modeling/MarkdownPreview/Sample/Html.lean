import MarkdownPreview.Text.Lines
import MarkdownPreview.Sample.Command
import MarkdownPreview.Token.Basic
import MarkdownPreview.Variable.Basic

/-!
# Code samples as HTML

`render` makes a code sample of the content of a fence and of what follows the fence's marks: the
labels are taken out of the content, variables become highlights, and commands become the items of a
list. The result is finished HTML.
-/

set_option autoImplicit false

namespace MarkdownPreview.Sample

open Text

/-- A stretch of code with its variables as highlights. -/
def codeHtml (cs : List Char) : String :=
  Variable.highlight Html.escapeCode Html.escapeCode (String.ofList cs)

/-- What comes before the text of a line of commands; the first line opens the list. -/
def itemOpening (prompt : String) (isFirst : Bool) : String :=
  (if isFirst then "<ul class=\"prefixed\">" else "</li>")
    ++ "<li class=\"line\" data-prefix=\"" ++ prompt ++ "\">"

/-- The lines of a series of commands, each as an item whose end is left to what follows. The empty
line that comes after the last line feed has no item, unless it is the only line. -/
def commandLines (prompt : String) : (isFirst : Bool) → List (List Char) → List String
  | _, [] => []
  | false, [[]] => [""]
  | isFirst, line :: rest =>
    (itemOpening prompt isFirst ++ codeHtml line) :: commandLines prompt false rest

/-- The body of a sample without what a command adds to its end. -/
def body (command? : Option Command) (kept : List (List Char)) : String :=
  match command? with
  | some command => String.intercalate "\n" (commandLines command.prompt true kept)
  | none => codeHtml (joinLines kept)

/-- A label, shown in an element of a class. -/
def labelHtml (className : String) : Option String → String
  | none => ""
  | some label =>
    "<div class=\"" ++ className ++ " \" title=\"" ++ Html.escape label ++ "\">"
      ++ Html.escape label ++ "</div>"

/-- The opening tag of the code, with the language as a class if there is one. -/
def codeOpening (language : String) : String :=
  if language.isEmpty then "<code>"
  else "<code class=\"code-highlight language-" ++ Html.escape language ++ "\">"

/-- A code sample. `finalBreak` says whether a line feed follows it. -/
def render (content info : String) (finalBreak : Bool) : String :=
  let (labels, kept) := Labels.extract {} (lines (normalizeBreaks content.toList))
  let language := String.ofList (firstWord info.toList)
  let command? := Command.ofLanguage? language
  let code := String.ofList (trimEnd (body command? kept).toList)
  labelHtml "code-label" labels.primary?
    ++ "<pre class=\"code-pre "
    ++ (match command? with
      | some command => command.className ++ " prefixed"
      | none => "")
    ++ "\">"
    ++ codeOpening (if command?.isSome then "bash" else language)
    ++ labelHtml "secondary-code-label" labels.secondary?
    ++ code ++ "\n"
    ++ (if command?.isSome then "</li></ul>" else "")
    ++ "</code></pre>"
    ++ (if finalBreak then "\n" else "")

/-- Writes the code samples of one level. Where `spaced` holds, blank lines are put between blocks
later on, and a sample before another one has no line feed of its own. -/
def renderLevel (spaced : Bool) : List Token → List Token
  | [] => []
  | t :: ts =>
    let t :=
      if t.kind = .fence ∧ t.tag = "code" then
        let nextIsFence := ts.head?.any fun next => next.kind == .fence
        Token.html (render t.content t.info (!(spaced && nextIsFence)))
      else t
    t :: renderLevel spaced ts

def renderAll (spaced : Bool) (ts : List Token) : List Token :=
  mapLevels (fun _ => renderLevel spaced) ts

end MarkdownPreview.Sample
