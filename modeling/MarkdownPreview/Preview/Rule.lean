import MarkdownPreview.BlankLines
import MarkdownPreview.Comment.Removal
import MarkdownPreview.Markdown.Nofollow
import MarkdownPreview.Note
import MarkdownPreview.Preview.Draft
import MarkdownPreview.Preview.Failure
import MarkdownPreview.Sample.Html
import MarkdownPreview.Variable.Highlight

/-!
# The rules

A rule changes the tokens of a document. There are seven, and those that are enabled always run in
one order (`Rule.all`), however they were chosen.
-/

set_option autoImplicit false

namespace MarkdownPreview

inductive Rule where
  /-- Gives headings an `id`. -/
  | headings
  /-- Marks links; where it is enabled, only some destinations make a link. -/
  | links
  /-- Takes comments out where HTML is not parsed. -/
  | comments
  /-- Wraps notes. -/
  | notes
  /-- Highlights variables. -/
  | variables
  /-- Writes code samples. -/
  | samples
  /-- Puts blank lines between blocks. -/
  | spacing
  deriving DecidableEq, Repr

namespace Rule

/-- The name of a rule, as it appears in options. -/
def name : Rule → String
  | .headings => "do_headings"
  | .links => "do_links"
  | .comments => "do_html_comments"
  | .notes => "do_notes"
  | .variables => "do_variable_highlights"
  | .samples => "do_code_blocks"
  | .spacing => "do_spacing"

/-- Every rule, in the order in which they run. -/
def all : List Rule := [.headings, .links, .comments, .notes, .variables, .samples, .spacing]

def ofName? (name : String) : Option Rule := all.find? fun r => r.name == name

/-- The rule of a name, or the failure that there is none. -/
def ofName (name : String) : Except Failure Rule :=
  match ofName? name with
  | some r => .ok r
  | none => .error (.unknownRule name)

/-- The rules that run before a rule. -/
def before (r : Rule) : List Rule := all.takeWhile (· != r)

/-- The anchors of a preview: coded slugs, and no focus. -/
def anchors : Anchor.Settings where
  tabIndex := false
  slug := Slug.ofHeading

def run (c : Conditions) : Rule → Draft → Draft
  | .headings, d => (Anchor.extension anchors).run d
  | .links, d => { d with tokens := Markdown.markLinks d.tokens }
  | .comments, d => if c.html then d else { d with tokens := Comment.removeAll d.tokens }
  | .notes, d => { d with tokens := Note.wrapAll d.tokens }
  | .variables, d => { d with tokens := Variable.highlightAll d.tokens }
  | .samples, d => { d with tokens := Sample.renderAll c.spaced d.tokens }
  | .spacing, d => { d with tokens := BlankLines.addAll d.tokens }

end Rule

end MarkdownPreview
