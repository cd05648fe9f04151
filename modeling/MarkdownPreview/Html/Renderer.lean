import MarkdownPreview.Text.Blank
import MarkdownPreview.Html.Attribute

/-!
# Tokens as HTML

How a token is written depends on the token and on its two neighbours, which decide about line feeds
around block tags; `Place` holds the three. A `Rule` writes a place. A renderer has rules for some
kinds and writes every other token as a tag (`tag`).

The stock rules write text and code escaped, HTML as it stands, and images with their alternative
text as an attribute. At the top level, an `inline` token is written as its children.
-/

set_option autoImplicit false

namespace MarkdownPreview.Html

structure Flags where
  /-- Close empty tags with a slash. -/
  xhtml : Bool := false
  /-- Write a soft break as a line break. -/
  breaks : Bool := false
  deriving Repr, DecidableEq

structure Place where
  previous? : Option Token
  token : Token
  next? : Option Token

/-- The places of a sequence of tokens that stands after `previous?`. -/
def placesAfter (previous? : Option Token) : List Token → List Place
  | [] => []
  | t :: ts => ⟨previous?, t, ts.head?⟩ :: placesAfter (some t) ts

def places (ts : List Token) : List Place := placesAfter none ts

/-- How the tokens of a kind are written. -/
abbrev Rule : Type := Flags → Place → String

/-- The flags, and the rules by which tokens are written. -/
structure Renderer where
  flags : Flags
  rule? : Kind → Option Rule

/-! ## Tags -/

/-- Whether the tag of a place is followed by a line feed. Block tags are, but not an opening tag
whose element has text, starts with a hidden token, or is empty. -/
def Place.endsLine (p : Place) : Bool :=
  p.token.block && !(p.token.nesting == .opening && match p.next? with
    | none => false
    | some next =>
      next.kind == .inline || next.hidden
        || (next.nesting == .closing && next.tag == p.token.tag))

/-- Whether a line feed is missing before the tag of a place, as it is after a hidden token. -/
def Place.startsLine (p : Place) : Bool :=
  p.token.block && p.token.nesting != .closing && match p.previous? with
    | none => false
    | some previous => previous.hidden

/-- A token written as a tag, unless it is hidden. -/
def tag : Rule := fun flags p =>
  if p.token.hidden then ""
  else
    (if p.startsLine then "\n" else "")
      ++ (if p.token.nesting = .closing then "</" else "<")
      ++ p.token.tag
      ++ attrsHtml p.token.attrs
      ++ (if p.token.nesting = .selfClosing ∧ flags.xhtml = true then " /" else "")
      ++ (if p.endsLine then ">\n" else ">")

/-! ## The stock rules -/

mutual

/-- What a token says in plain text. -/
def plainText : Token → String
  | .mk kind _ _ _ content _ _ children _ _ =>
    match kind with
    | .text | .htmlInline | .htmlBlock => content
    | .image => plainTextBelow children
    | .softbreak | .hardbreak => "\n"
    | _ => ""

def plainTextBelow : Option (List Token) → String
  | none => ""
  | some ts => plainTextOf ts

def plainTextOf : List Token → String
  | [] => ""
  | t :: ts => plainText t ++ plainTextOf ts

end

def codeInline : Rule := fun _ p =>
  "<code" ++ attrsHtml p.token.attrs ++ ">" ++ escape p.token.content ++ "</code>"

def codeBlock : Rule := fun _ p =>
  "<pre" ++ attrsHtml p.token.attrs ++ "><code>" ++ escape p.token.content ++ "</code></pre>\n"

/-- Adds a word to the first `class` attribute, or adds the attribute at the end. -/
def addClass : Attrs → String → Attrs
  | [], word => [("class", word)]
  | (key, value) :: attrs, word =>
    if key = "class" then (key, value ++ " " ++ word) :: attrs
    else (key, value) :: addClass attrs word

/-- A fenced code block; the first word of what follows the fence is its language. -/
def fence : Rule := fun _ p =>
  let info := p.token.info.toList
  let language := "language-" ++ String.ofList (Text.firstWord info)
  let attrs :=
    if (Text.trim info).isEmpty then p.token.attrs else addClass p.token.attrs language
  "<pre><code" ++ attrsHtml attrs ++ ">" ++ escape p.token.content ++ "</code></pre>\n"

/-- An image; its alternative text is what its children say. -/
def image : Rule := fun flags p =>
  tag flags ⟨none, p.token.setAttr "alt" (plainTextOf p.token.inner), none⟩

def lineBreak (flags : Flags) : String := if flags.xhtml then "<br />" else "<br>"

/-- A line break that the source asks for. -/
def hardbreak : Rule := fun flags _ => lineBreak flags ++ "\n"

/-- A line break of the source. -/
def softbreak : Rule := fun flags _ => if flags.breaks then lineBreak flags ++ "\n" else "\n"

def text : Rule := fun _ p => escape p.token.content

def raw : Rule := fun _ p => p.token.content

def stockRule? : Kind → Option Rule
  | .codeInline => some codeInline
  | .codeBlock => some codeBlock
  | .fence => some fence
  | .image => some image
  | .hardbreak => some hardbreak
  | .softbreak => some softbreak
  | .text => some text
  | .htmlBlock => some raw
  | .htmlInline => some raw
  | _ => none

namespace Renderer

def stock (flags : Flags) : Renderer := ⟨flags, stockRule?⟩

/-- The renderer with a rule of its own for one kind. -/
def withRule (r : Renderer) (kind : Kind) (rule : Rule) : Renderer :=
  { r with rule? := fun k => if k = kind then some rule else r.rule? k }

def renderPlace (r : Renderer) (p : Place) : String :=
  match r.rule? p.token.kind with
  | some rule => rule r.flags p
  | none => tag r.flags p

def renderRun (r : Renderer) (ts : List Token) : String :=
  String.join ((places ts).map r.renderPlace)

def render (r : Renderer) (ts : List Token) : String :=
  String.join ((places ts).map fun p =>
    if p.token.kind = .inline then r.renderRun p.token.inner else r.renderPlace p)

/-- Each token written as a tag, whatever its kind. -/
def renderTags (r : Renderer) (ts : List Token) : List String := (places ts).map (tag r.flags)

end Renderer

end MarkdownPreview.Html
