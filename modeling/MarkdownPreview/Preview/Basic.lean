import MarkdownPreview.Html.Renderer
import MarkdownPreview.Markdown.Block
import MarkdownPreview.Preview.Options
import MarkdownPreview.Text.Lines

/-!
# Previews

A preview turns a Markdown document into the HTML of a tutorial: the document becomes tokens, the
enabled rules change them, and they are written as HTML. It is made from options; single rules can
be enabled and disabled afterwards.

The Markdown tree of a document refers to its text with line feeds for all line breaks.
-/

set_option autoImplicit false

namespace MarkdownPreview

/-- A document: its text, and what a Markdown parser made of it. -/
structure Document where
  source : String
  tree : Markdown.Node

/-- The text of a document with line feeds for all line breaks. -/
def Document.text (d : Document) : String :=
  String.ofList (Text.normalizeBreaks d.source.toList)

/-- The tokens of a document before any rule. -/
def Document.tokens (d : Document) (acceptance : Markdown.Acceptance) (superscript : Bool) :
    List Token :=
  Markdown.tokens d.text acceptance superscript d.tree

/-- A configured preview. -/
structure Preview where
  options : Options
  /-- The rules that run, in this order. -/
  enabled : List Rule

namespace Preview

/-- The preview with the rules its options select. -/
def ofOptions (o : Options) : Preview := ⟨o, o.rules.rules⟩

/-- The preview with options given as JSON text. -/
def ofText (text : String) : Except Failure Preview :=
  match Options.ofText? text with
  | some o => .ok (ofOptions o)
  | none => .error .invalidOptions

def isEnabled (p : Preview) (r : Rule) : Bool := p.enabled.contains r

def enable (p : Preview) (r : Rule) : Preview :=
  { p with enabled := Rule.all.filter fun x => x == r || p.isEnabled x }

def disable (p : Preview) (r : Rule) : Preview :=
  { p with enabled := p.enabled.filter (· != r) }

/-- Which destinations of links are accepted. -/
def acceptance (p : Preview) : Markdown.Acceptance :=
  if p.isEnabled .links then .strict else .lenient

def conditions (p : Preview) : Conditions := ⟨p.options.html, p.isEnabled .spacing⟩

/-- The tokens of a document after all rules. -/
def tokens (p : Preview) (d : Document) : List Token :=
  let draft : Draft := ⟨d.tokens p.acceptance p.options.superscript, {}⟩
  (p.enabled.foldl (fun draft r => r.run p.conditions draft) draft).tokens

/-- A line break of the source; it is not followed by a line feed. -/
def softbreak : Html.Rule := fun flags _ => if flags.breaks then Html.lineBreak flags else "\n"

def text : Html.Rule := fun _ place => Prose.escape place.token.content

def renderer (p : Preview) : Html.Renderer :=
  ((Html.Renderer.stock ⟨p.options.xhtml, p.options.breaks⟩).withRule .softbreak softbreak).withRule
    .text text

/-- The HTML of a document. -/
def render (p : Preview) (d : Document) : String := p.renderer.render (p.tokens d)

end Preview

end MarkdownPreview
