import MarkdownPreview.Text.Lines
import MarkdownPreview.Markdown.Inline
import MarkdownPreview.Markdown.Raised

/-!
# The tokens of a document

The blocks of a document become a flat sequence of tokens. A block that has text holds it in one
`inline` token, between its opening and its closing token; the content of an `inline` token is its
source, without the marks and indentation that continue the blocks around it on later lines.

A list is tight if neither it nor one of its items is spread; the paragraphs of its items are then
hidden, that is, their tags are not written.
-/

set_option autoImplicit false

namespace MarkdownPreview.Markdown

open Text

/-! ## Text of a block -/

def isIndent (c : Char) : Bool := c == ' ' || c == '\t'

/-- A line of a block inside `depth` block quotes, without up to `depth` quote marks and the
indentation around them. -/
def stripContinuation : (depth : Nat) → List Char → List Char
  | 0, line => line.dropWhile isIndent
  | depth + 1, line =>
    match line.dropWhile isIndent with
    | '>' :: rest => stripContinuation depth rest
    | rest => rest

/-- A source text with every line but the first stripped of what continues the blocks around it. -/
def stripContinuations (depth : Nat) (text : List Char) : List Char :=
  match lines text with
  | [] => []
  | line :: rest => joinLines (line :: rest.map (stripContinuation depth))

/-- The source text from the start of the first node to the end of the last one, if both places are
known. -/
def Setting.spanned? (s : Setting) (ns : List Node) : Option (List Char) :=
  match ns.head?.bind Node.extent?, ns.getLast?.bind Node.extent? with
  | some first, some last => slice? first.start last.stop s.source
  | _, _ => none

/-- The `inline` token of a block inside `depth` block quotes. -/
def textToken (s : Setting) (depth : Nat) (ns : List Node) : Token :=
  let content := match s.spanned? ns with
    | some text => String.ofList (stripContinuations depth text)
    | none => ""
  let ts := inlineTokens s ns
  Token.inline content (if s.superscript then raiseAll ts else ts)

/-! ## Blocks without blocks inside -/

def opening (e : Element) (tag : String) : Token := Token.ofBlock (.opening e) tag .opening

def closing (e : Element) (tag : String) : Token := Token.ofBlock (.closing e) tag .closing

def paragraph (s : Setting) (depth : Nat) (hidden : Bool) (ns : List Node) : List Token :=
  [{ opening .paragraph "p" with hidden }, textToken s depth ns,
    { closing .paragraph "p" with hidden }]

def tagOfLevel (depth : Nat) : String :=
  match depth with
  | 1 => "h1"
  | 2 => "h2"
  | 3 => "h3"
  | 4 => "h4"
  | 5 => "h5"
  | _ => "h6"

def headingTokens (s : Setting) (depth level : Nat) (ns : List Node) : List Token :=
  let markup := String.ofList (List.replicate level '#')
  [{ opening .heading (tagOfLevel level) with markup }, textToken s depth ns,
    { closing .heading (tagOfLevel level) with markup }]

/-- The run of marks that opens a code fence, if the source of a code block starts with one. -/
def fenceMarks? (source : List Char) : Option (List Char) :=
  match trimStart source with
  | a :: b :: c :: rest =>
    if (a = '`' || a = '~') && b = a && c = a then some (a :: b :: c :: rest.takeWhile (· == a))
    else none
  | _ => none

def codeToken (s : Setting) (extent? : Option Extent) (value : String)
    (lang? rest? : Option String) : Token :=
  let content := if value.isEmpty then "" else value ++ "\n"
  match fenceMarks? (s.slice extent?) with
  | some marks =>
    let info := match lang?, rest? with
      | some lang, some rest => lang ++ " " ++ rest
      | some lang, none => lang
      | none, _ => ""
    { Token.ofBlock .fence "code" .selfClosing with content, info, markup := String.ofList marks }
  | none => { Token.ofBlock .codeBlock "code" .selfClosing with content }

/-- A block of HTML; it ends with a line feed. -/
def htmlToken (value : String) : Token :=
  let content := if value.toList.getLast? = some '\n' then value else value ++ "\n"
  { Token.ofBlock .htmlBlock "" .selfClosing with content }

/-- A definition has no tokens, unless its destination is not accepted; then it is a paragraph as it
was written. -/
def definitionTokens (s : Setting) (extent? : Option Extent) (url : String) : List Token :=
  if s.acceptance.admits url then []
  else
    let literal := s.slice extent?
    [opening .paragraph "p",
      Token.inline (String.ofList literal) (addText [] literal).reverse,
      closing .paragraph "p"]

/-! ## Tables -/

def Alignment.style? : Alignment → Option String
  | .left => some "text-align:left"
  | .right => some "text-align:right"
  | .center => some "text-align:center"
  | .unspecified => none

/-- The cells of a row, where the first column is number `column`. -/
def rowCells (s : Setting) (depth : Nat) (columns : List Alignment) (e : Element) (tag : String) :
    (column : Nat) → List Node → List Token
  | _, [] => []
  | column, .tableCell _ ns :: rest =>
    let style? := columns[column]?.bind Alignment.style?
    { opening e tag with attrs := (style?.map fun v => ("style", v)).toList }
      :: textToken s depth ns :: closing e tag
      :: rowCells s depth columns e tag (column + 1) rest
  | column, _ :: rest => rowCells s depth columns e tag (column + 1) rest

def rowTokens (s : Setting) (depth : Nat) (columns : List Alignment) (isHead : Bool)
    (ns : List Node) : List Token :=
  let cells :=
    if isHead then rowCells s depth columns .th "th" 0 ns
    else rowCells s depth columns .td "td" 0 ns
  opening .tr "tr" :: (cells ++ [closing .tr "tr"])

/-- The rows of a table from number `row` on: row 0 is its head, row 1 starts its body. -/
def tableRows (s : Setting) (depth : Nat) (columns : List Alignment) :
    (row : Nat) → List Node → List Token
  | _, [] => []
  | 0, .tableRow _ ns :: rest =>
    opening .thead "thead" :: (rowTokens s depth columns true ns ++ [closing .thead "thead"])
      ++ tableRows s depth columns 1 rest
  | 1, .tableRow _ ns :: rest =>
    opening .tbody "tbody" :: rowTokens s depth columns false ns
      ++ tableRows s depth columns 2 rest
  | row + 2, .tableRow _ ns :: rest =>
    rowTokens s depth columns false ns ++ tableRows s depth columns (row + 3) rest
  | row, _ :: rest => tableRows s depth columns (row + 1) rest

def tableTokens (s : Setting) (depth : Nat) (columns : List Alignment) (ns : List Node) :
    List Token :=
  opening .table "table" :: tableRows s depth columns 0 ns
    ++ (if ns.length > 1 then [closing .tbody "tbody"] else [])
    ++ [closing .table "table"]

/-! ## Lists and documents -/

def isSpreadItem : Node → Bool
  | .listItem _ spread _ => spread
  | _ => false

def listElement (ordered : Bool) : Element × String :=
  if ordered then (.orderedList, "ol") else (.bulletList, "ul")

/-- The attributes of a list: the number it starts with, unless that is 1. -/
def listAttrs : Option Nat → Attrs
  | some start => if start = 1 then [] else [("start", toString start)]
  | none => []

mutual

/-- The tokens of a block inside `depth` block quotes. -/
def block (s : Setting) (depth : Nat) : Node → List Token
  | .root _ ns => blocks s depth ns
  | .paragraph _ ns => paragraph s depth false ns
  | .heading _ level ns => headingTokens s depth level ns
  | .blockquote _ ns =>
    { opening .blockquote "blockquote" with markup := ">" } :: blocks s (depth + 1) ns
      ++ [{ closing .blockquote "blockquote" with markup := ">" }]
  | .list _ ordered start? spread ns =>
    let (e, tag) := listElement ordered
    let tight := !spread && !ns.any isSpreadItem
    { opening e tag with attrs := listAttrs start? } :: items s depth tight ns ++ [closing e tag]
  | .code extent? value lang? rest? => [codeToken s extent? value lang? rest?]
  | .html _ value => [htmlToken value]
  | .thematicBreak extent? =>
    [{ Token.ofBlock .hr "hr" .selfClosing with markup := String.ofList (trim (s.slice extent?)) }]
  | .table _ columns ns => tableTokens s depth columns ns
  | .definition extent? _ url _ => definitionTokens s extent? url
  | _ => []

def blocks (s : Setting) (depth : Nat) : List Node → List Token
  | [] => []
  | n :: ns => block s depth n ++ blocks s depth ns

def items (s : Setting) (depth : Nat) (tight : Bool) : List Node → List Token
  | [] => []
  | .listItem _ _ ns :: rest =>
    opening .listItem "li" :: itemBlocks s depth tight ns ++ [closing .listItem "li"]
      ++ items s depth tight rest
  | n :: rest => block s depth n ++ items s depth tight rest

def itemBlocks (s : Setting) (depth : Nat) (tight : Bool) : List Node → List Token
  | [] => []
  | .paragraph _ ns :: rest => paragraph s depth tight ns ++ itemBlocks s depth tight rest
  | n :: rest => block s depth n ++ itemBlocks s depth tight rest

end

/-- The tokens of a document with this source and tree. -/
def tokens (source : String) (acceptance : Acceptance) (superscript : Bool) (root : Node) :
    List Token :=
  block ⟨source.toList, acceptance, superscript, root.definitions⟩ 0 root

end MarkdownPreview.Markdown
