import MarkdownPreview.Text.Blank
import MarkdownPreview.Text.Bytes
import MarkdownPreview.Text.Lines
import MarkdownPreview.Token.Basic
import MarkdownPreview.Markdown.Acceptance
import MarkdownPreview.Markdown.Node

/-!
# The tokens of running text

The nodes of running text become a flat sequence of tokens: an element becomes an opening token,
its content and a closing token. The sequence is kept newest first while it grows (`Line`), since
what is added looks at what was added last:

* text is joined to text before it, a line feed becomes a soft break, and spaces before and after a
  break are dropped (`Line.push`);
* a bare address is not made a link inside an `<a>` element written by hand, so the number of such
  elements still open is carried along.

A link, image or reference that is not accepted is put back as it was written.
-/

set_option autoImplicit false

namespace MarkdownPreview.Markdown

open Text

/-- What the tokens of a document depend on besides its tree. -/
structure Setting where
  source : List Char
  acceptance : Acceptance
  superscript : Bool
  definitions : List (String × Destination)

namespace Setting

/-- The source text of a node, empty if it has none. -/
def slice (s : Setting) (extent? : Option Extent) : List Char :=
  (extent?.bind fun e => slice? e.start e.stop s.source).getD []

/-- The destination a reference stands for, if there is one and it is accepted. -/
def resolve? (s : Setting) (identifier : String) : Option Destination :=
  (s.definitions.lookup identifier).filter fun d => s.acceptance.admits d.url

end Setting

/-- The tokens of running text so far, newest first, and the number of `<a>` elements written by
hand that are open. -/
structure Line where
  newest : List Token := []
  anchors : Nat := 0

/-! ## Text and breaks -/

/-- The tokens without the spaces at the end of the text they end in, if they do, and without that
text if nothing else was in it. Newest first. -/
def dropLastSpaces : List Token → List Token
  | [] => []
  | t :: ts =>
    if t.kind = .text then
      let kept := dropEndWhile (· == ' ') t.content.toList
      if kept.isEmpty then ts else { t with content := String.ofList kept } :: ts
    else t :: ts

/-- Whether the tokens end in a line break. Newest first. -/
def isAfterBreak : List Token → Bool
  | [] => false
  | t :: _ => t.kind == .softbreak || t.kind == .hardbreak

def breakToken (kind : Kind) : Token := { kind, tag := "br", markup := "\n" }

/-- The tokens with text added to the text they end in, or as a text of its own. Newest first. -/
def joined (ts : List Token) (text : List Char) : List Token :=
  match ts with
  | [] => [Token.text (String.ofList text)]
  | t :: rest =>
    if t.kind = .text then
      { t with content := String.ofList (t.content.toList ++ text) } :: rest
    else Token.text (String.ofList text) :: t :: rest

/-- Adds text without a line feed, less the spaces it starts with where it follows a break. Newest
first. -/
def addPiece (ts : List Token) (piece : List Char) : List Token :=
  match if isAfterBreak ts then piece.dropWhile (· == ' ') else piece with
  | [] => ts
  | text => joined ts text

/-- Adds a line of text after a soft break. Newest first. -/
def addLine (ts : List Token) (line : List Char) : List Token :=
  addPiece (breakToken .softbreak :: dropLastSpaces ts) line

/-- Adds text. Newest first. -/
def addText (ts : List Token) (text : List Char) : List Token :=
  match lines text with
  | [] => ts
  | first :: later => later.foldl addLine (addPiece ts first)

namespace Line

def push (l : Line) (text : List Char) : Line := { l with newest := addText l.newest text }

def add (l : Line) (t : Token) : Line := { l with newest := t :: l.newest }

def pushHardBreak (l : Line) : Line :=
  { l with newest := breakToken .hardbreak :: dropLastSpaces l.newest }

def pushHtml (l : Line) (html : String) : Line :=
  let anchors :=
    if opensAnchor html then l.anchors + 1
    else if closesAnchor html then l.anchors - 1
    else l.anchors
  { newest := { kind := .htmlInline, content := html } :: l.newest, anchors }

/-- Whether what is added next stands inside an `<a>` element written by hand. -/
def insideAnchor (l : Line) : Bool :=
  l.anchors > 0 || match l.newest with
    | [] => false
    | t :: _ => t.kind == .text && opensAnchor t.content

end Line

/-! ## Links and images -/

/-- How a link was written. -/
inductive LinkForm where
  /-- An address between angle brackets. -/
  | angle
  /-- A label in brackets. -/
  | bracket
  /-- An address on its own. -/
  | bare
  deriving DecidableEq, Repr

/-- How a link was written, to judge by its source. -/
def LinkForm.ofSource : List Char → LinkForm
  | '<' :: _ => .angle
  | '[' :: _ => .bracket
  | _ => .bare

/-- The opening token of a link. `markup` says what kind of address it was made from, if it was. -/
def linkOpening (url : String) (title? : Option String) (markup : String) : Token :=
  { kind := .opening .link, tag := "a", nesting := .opening,
    attrs := ("href", url) :: (title?.map fun t => ("title", t)).toList,
    info := if markup.isEmpty then "" else "auto", markup }

def linkClosing (markup : String) : Token := Token.spanClosing .link "a" markup

def picture (url alt : String) (title? : Option String) : Token :=
  { kind := .image, tag := "img",
    attrs := ("src", url) :: ("alt", "") :: (title?.map fun t => ("title", t)).toList,
    content := alt, children := some (if alt.isEmpty then [] else [Token.text alt]) }

/-- The source of a link from the end of its label on. -/
def Setting.afterLabel (s : Setting) (e : Extent) (label : List Node) : List Char :=
  let start := match label.getLast?.bind Node.extent? with
    | some last => last.stop
    | none => e.start + 1
  (slice? start e.stop s.source).getD []

/-! ## Nodes -/

mutual

/-- Adds the tokens of a node of running text. -/
def inline (s : Setting) : Node → Line → Line
  | .text _ value, l => l.push value.toList
  | .lineBreak _, l => l.pushHardBreak
  | .inlineCode _ value, l =>
    l.add { kind := .codeInline, tag := "code", content := value, markup := "`" }
  | .html _ value, l => l.pushHtml value
  | .emphasis e ns, l =>
    let markup := String.ofList ((s.slice e).take 1)
    (inlines s ns (l.add (Token.spanOpening .em "em" markup))).add
      (Token.spanClosing .em "em" markup)
  | .strong e ns, l =>
    let markup := String.ofList ((s.slice e).take 2)
    (inlines s ns (l.add (Token.spanOpening .strong "strong" markup))).add
      (Token.spanClosing .strong "strong" markup)
  | .delete _ ns, l =>
    (inlines s ns (l.add (Token.spanOpening .strikethrough "s" "~~"))).add
      (Token.spanClosing .strikethrough "s" "~~")
  | .link e url title? ns, l =>
    match LinkForm.ofSource (s.slice e) with
    | .angle =>
      (inlines s ns (l.add (linkOpening url none "autolink"))).add (linkClosing "autolink")
    | .bracket =>
      if s.acceptance.admits url then
        (inlines s ns (l.add (linkOpening url title? ""))).add (linkClosing "")
      else match e with
        | none => l
        | some e => (inlines s ns (l.push ['['])).push (s.afterLabel e ns)
    | .bare =>
      let address := s.slice e
      if s.acceptance = .lenient
          ∨ isExplicitAddress (String.ofList address) url = true ∧ l.insideAnchor = false then
        (inlines s ns (l.add (linkOpening url none "linkify"))).add (linkClosing "linkify")
      else l.push address
  | .linkReference e identifier ns, l =>
    match s.resolve? identifier with
    | some d => (inlines s ns (l.add (linkOpening d.url d.title? ""))).add (linkClosing "")
    | none => match e with
      | none => l
      | some e => (inlines s ns (l.push ['['])).push (s.afterLabel e ns)
  | .image e url alt title?, l =>
    if s.acceptance.admits url then l.add (picture url alt title?) else l.push (s.slice e)
  | .imageReference e identifier alt, l =>
    match s.resolve? identifier with
    | some d => l.add (picture d.url alt d.title?)
    | none => l.push (s.slice e)
  | _, l => l

def inlines (s : Setting) : List Node → Line → Line
  | [], l => l
  | n :: ns, l => inlines s ns (inline s n l)

end

def inlineTokens (s : Setting) (ns : List Node) : List Token := (inlines s ns {}).newest.reverse

end MarkdownPreview.Markdown
