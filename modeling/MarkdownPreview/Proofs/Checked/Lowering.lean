import MarkdownPreview.Markdown.Block
import MarkdownPreview.Proofs.Checked.Place
import MarkdownPreview.Proofs.Checked.Running

/-!
# Blocks, with every place checked

While a document becomes tokens, each new token is looked up again where it has been put, at the end
of those so far, to be given its attributes; and the number of block quotes around a block is taken
down again when one ends. The token is always there and the number never below zero, for any tree
and any source: the extents of nodes are only ever used to ask for a slice that need not exist.
-/

set_option autoImplicit false

namespace MarkdownPreview.Checked

open Text Markdown

/-- The tokens of a document so far, and the number of block quotes around the next one. -/
structure Output where
  tokens : List Token := []
  quotes : Nat := 0

namespace Output

def add (o : Output) (ts : List Token) : Output := { o with tokens := o.tokens ++ ts }

/-- Puts a token at the end and edits it where it is then. -/
def push? (o : Output) (t : Token) (edit : Token → Token) : Option Output := do
  let tokens := o.tokens ++ [t]
  let last ← sub? tokens.length 1
  let pushed ← tokens[last]?
  let tokens ← put? tokens last (edit pushed)
  return { o with tokens }

/-- Enters a block quote. -/
def enter (o : Output) : Output := { o with quotes := o.quotes + 1 }

/-- Leaves a block quote. -/
def leave? (o : Output) : Option Output := (sub? o.quotes 1).map fun quotes => { o with quotes }

@[simp] theorem quotes_add (o : Output) (ts : List Token) : (o.add ts).quotes = o.quotes := rfl

@[simp] theorem quotes_enter (o : Output) : o.enter.quotes = o.quotes + 1 := rfl

@[simp] theorem add_add (o : Output) (ts us : List Token) : (o.add ts).add us = o.add (ts ++ us) := by
  simp [add]

@[simp] theorem add_nil (o : Output) : o.add [] = o := by
  simp [add]

@[simp] theorem push?_eq (o : Output) (t : Token) (edit : Token → Token) :
    o.push? t edit = some (o.add [edit t]) := by
  have hlast : sub? (o.tokens ++ [t]).length 1 = some o.tokens.length := by simp [sub?]
  have hpushed : (o.tokens ++ [t])[o.tokens.length]? = some t := by simp
  have hplace : o.tokens.length < (o.tokens ++ [t]).length := by simp
  simp only [push?, hlast, hpushed, put?_eq hplace, Option.bind_eq_bind, Option.bind_some]
  simp [add]

@[simp] theorem leave?_enter_add (o : Output) (ts : List Token) :
    (o.enter.add ts).leave? = some (o.add ts) := by
  rw [leave?, quotes_add, enter, sub?_eq (Nat.le_add_left 1 _)]
  rfl

end Output

/-! ## Blocks without blocks inside -/

/-- The `inline` token of a block. -/
def textToken? (s : Setting) (depth : Nat) (ns : List Node) : Option Token := do
  let content := match s.spanned? ns with
    | some text => String.ofList (stripContinuations depth text)
    | none => ""
  let ts ← inlineTokens? s ns
  let ts ← if s.superscript then raiseAll? ts else some ts
  return Token.inline content ts

@[simp] theorem textToken?_eq (s : Setting) (depth : Nat) (ns : List Node) :
    textToken? s depth ns = some (textToken s depth ns) := by
  simp only [textToken?, textToken, inlineTokens?_eq, raiseAll?_eq, Option.bind_eq_bind,
    Option.bind_some]
  split <;> rfl

def paragraph? (s : Setting) (hidden : Bool) (ns : List Node) (o : Output) : Option Output := do
  let o ← o.push? (opening .paragraph "p") fun t => { t with hidden }
  let text ← textToken? s o.quotes ns
  (o.add [text]).push? (closing .paragraph "p") fun t => { t with hidden }

def heading? (s : Setting) (level : Nat) (ns : List Node) (o : Output) : Option Output := do
  let markup := String.ofList (List.replicate level '#')
  let o ← o.push? (opening .heading (tagOfLevel level)) fun t => { t with markup }
  let text ← textToken? s o.quotes ns
  (o.add [text]).push? (closing .heading (tagOfLevel level)) fun t => { t with markup }

/-- The cells of a row, where the first column is number `column`. -/
def rowCells? (s : Setting) (columns : List Markdown.Alignment) (e : Element) (tag : String) :
    (column : Nat) → List Node → Output → Option Output
  | _, [], o => some o
  | column, .tableCell _ ns :: rest, o => do
    let style? := columns[column]?.bind Markdown.Alignment.style?
    let o ← o.push? (opening e tag) fun t =>
      { t with attrs := (style?.map fun v => ("style", v)).toList }
    let text ← textToken? s o.quotes ns
    let o ← (o.add [text]).push? (closing e tag) id
    rowCells? s columns e tag (column + 1) rest o
  | column, _ :: rest, o => rowCells? s columns e tag (column + 1) rest o

def row? (s : Setting) (columns : List Markdown.Alignment) (isHead : Bool) (ns : List Node)
    (o : Output) : Option Output := do
  let o ← o.push? (opening .tr "tr") id
  let o ←
    if isHead then rowCells? s columns .th "th" 0 ns o else rowCells? s columns .td "td" 0 ns o
  o.push? (closing .tr "tr") id

/-- The rows of a table from number `row` on. -/
def tableRows? (s : Setting) (columns : List Markdown.Alignment) :
    (row : Nat) → List Node → Output → Option Output
  | _, [], o => some o
  | 0, .tableRow _ ns :: rest, o => do
    let o ← o.push? (opening .thead "thead") id
    let o ← row? s columns true ns o
    let o ← o.push? (closing .thead "thead") id
    tableRows? s columns 1 rest o
  | 1, .tableRow _ ns :: rest, o => do
    let o ← o.push? (opening .tbody "tbody") id
    let o ← row? s columns false ns o
    tableRows? s columns 2 rest o
  | row + 2, .tableRow _ ns :: rest, o => do
    let o ← row? s columns false ns o
    tableRows? s columns (row + 3) rest o
  | row, _ :: rest, o => tableRows? s columns (row + 1) rest o

def table? (s : Setting) (columns : List Markdown.Alignment) (ns : List Node) (o : Output) :
    Option Output := do
  let o ← o.push? (opening .table "table") id
  let o ← tableRows? s columns 0 ns o
  let o ← if ns.length > 1 then o.push? (closing .tbody "tbody") id else some o
  o.push? (closing .table "table") id

/-- A definition whose destination is not accepted is a paragraph as it was written. -/
def definition? (s : Setting) (extent? : Option Extent) (url : String) (o : Output) :
    Option Output :=
  if s.acceptance.admits url then some o
  else do
    let literal := s.slice extent?
    let children ← addText? [] literal
    let o ← o.push? (opening .paragraph "p") id
    (o.add [Token.inline (String.ofList literal) children.reverse]).push?
      (closing .paragraph "p") id

section

variable (s : Setting) (o : Output)

@[simp] theorem paragraph?_eq (hidden : Bool) (ns : List Node) :
    paragraph? s hidden ns o = some (o.add (paragraph s o.quotes hidden ns)) := by
  simp [paragraph?, paragraph]

@[simp] theorem heading?_eq (level : Nat) (ns : List Node) :
    heading? s level ns o = some (o.add (headingTokens s o.quotes level ns)) := by
  simp [heading?, headingTokens]

@[simp] theorem definition?_eq (extent? : Option Extent) (url : String) :
    definition? s extent? url o = some (o.add (definitionTokens s extent? url)) := by
  rw [definition?, definitionTokens]
  split <;> simp [addText?_eq]

theorem rowCells?_eq (columns : List Markdown.Alignment) (e : Element) (tag : String) (column : Nat)
    (ns : List Node) : rowCells? s columns e tag column ns o
      = some (o.add (rowCells s o.quotes columns e tag column ns)) := by
  induction ns generalizing column o with
  | nil => simp [rowCells?, rowCells]
  | cons n rest ih =>
    cases n with
    | tableCell _ ns => simp [rowCells?, rowCells, ih]
    | _ => simp [rowCells?, rowCells, ih]

@[simp] theorem row?_eq (columns : List Markdown.Alignment) (isHead : Bool) (ns : List Node) :
    row? s columns isHead ns o = some (o.add (rowTokens s o.quotes columns isHead ns)) := by
  cases isHead <;> simp [row?, rowTokens, rowCells?_eq]

theorem tableRows?_eq (columns : List Markdown.Alignment) (row : Nat) (ns : List Node) :
    tableRows? s columns row ns o = some (o.add (tableRows s o.quotes columns row ns)) := by
  induction ns generalizing row o with
  | nil => cases row <;> simp [tableRows?, tableRows]
  | cons n rest ih =>
    cases n with
    | tableRow _ ns =>
      match row with
      | 0 => simp [tableRows?, tableRows, ih]
      | 1 => simp [tableRows?, tableRows, ih]
      | row + 2 => simp [tableRows?, tableRows, ih]
    | _ => simp [tableRows?, tableRows, ih]

@[simp] theorem table?_eq (columns : List Markdown.Alignment) (ns : List Node) :
    table? s columns ns o = some (o.add (tableTokens s o.quotes columns ns)) := by
  simp only [table?, tableTokens, Output.push?_eq, tableRows?_eq, Option.bind_eq_bind,
    Option.bind_some]
  split <;> simp

end

/-! ## Lists and documents -/

mutual

/-- Adds the tokens of a block. -/
def block? (s : Setting) : Node → Output → Option Output
  | .root _ ns, o => blocks? s ns o
  | .paragraph _ ns, o => paragraph? s false ns o
  | .heading _ level ns, o => heading? s level ns o
  | .blockquote _ ns, o => do
    let o ← o.enter.push? (opening .blockquote "blockquote") fun t => { t with markup := ">" }
    let o ← blocks? s ns o
    let o ← o.push? (closing .blockquote "blockquote") fun t => { t with markup := ">" }
    o.leave?
  | .list _ ordered start? spread ns, o => do
    let (e, tag) := listElement ordered
    let tight := !spread && !ns.any isSpreadItem
    let o ← o.push? (opening e tag) fun t => { t with attrs := listAttrs start? }
    let o ← items? s tight ns o
    o.push? (closing e tag) id
  | .table _ columns ns, o => table? s columns ns o
  | .definition extent? _ url _, o => definition? s extent? url o
  | .code extent? value lang? rest?, o => o.push? (codeToken s extent? value lang? rest?) id
  | .html _ value, o => o.push? (htmlToken value) id
  | .thematicBreak extent?, o => o.push? (Token.ofBlock .hr "hr" .selfClosing) fun t =>
    { t with markup := String.ofList (trim (s.slice extent?)) }
  | _, o => some o

def blocks? (s : Setting) : List Node → Output → Option Output
  | [], o => some o
  | n :: ns, o => (block? s n o).bind fun o => blocks? s ns o

def items? (s : Setting) (tight : Bool) : List Node → Output → Option Output
  | [], o => some o
  | .listItem _ _ ns :: rest, o => do
    let o ← o.push? (opening .listItem "li") id
    let o ← itemBlocks? s tight ns o
    let o ← o.push? (closing .listItem "li") id
    items? s tight rest o
  | n :: rest, o => (block? s n o).bind fun o => items? s tight rest o

def itemBlocks? (s : Setting) (tight : Bool) : List Node → Output → Option Output
  | [], o => some o
  | .paragraph _ ns :: rest, o => (paragraph? s tight ns o).bind fun o => itemBlocks? s tight rest o
  | n :: rest, o => (block? s n o).bind fun o => itemBlocks? s tight rest o

end

mutual

theorem block?_eq (s : Setting) : ∀ (n : Node) (o : Output),
    block? s n o = some (o.add (block s o.quotes n))
  | .root _ ns, o => by simp [block?, block, blocks?_eq s ns]
  | .paragraph _ ns, o => by simp [block?, block]
  | .heading _ level ns, o => by simp [block?, block]
  | .blockquote _ ns, o => by
    simp [block?, block, blocks?_eq s ns]
  | .list _ ordered start? spread ns, o => by simp [block?, block, items?_eq s _ ns]
  | .table _ columns ns, o => by simp [block?, block]
  | .definition extent? _ url _, o => by simp [block?, block]
  | .code _ _ _ _, o | .html _ _, o | .thematicBreak _, o => by simp [block?, block]
  | .listItem _ _ _, o | .math _ _, o | .tableRow _ _, o | .tableCell _ _, o
  | .footnoteDefinition _ _ _, o | .text _ _, o | .lineBreak _, o | .inlineCode _ _, o
  | .inlineMath _ _, o | .emphasis _ _, o | .strong _ _, o | .delete _ _, o | .link _ _ _ _, o
  | .linkReference _ _ _, o | .image _ _ _ _, o | .imageReference _ _ _, o => by
    simp [block?, block]

theorem blocks?_eq (s : Setting) : ∀ (ns : List Node) (o : Output),
    blocks? s ns o = some (o.add (blocks s o.quotes ns))
  | [], o => by simp [blocks?, blocks]
  | n :: ns, o => by simp [blocks?, blocks, block?_eq s n, blocks?_eq s ns]

theorem items?_eq (s : Setting) (tight : Bool) : ∀ (ns : List Node) (o : Output),
    items? s tight ns o = some (o.add (items s o.quotes tight ns))
  | [], o => by simp [items?, items]
  | n :: rest, o => by
    cases n with
    | listItem _ _ ns =>
      simp [items?, items, itemBlocks?_eq s tight ns, items?_eq s tight rest]
    | _ => simp [items?, items, block?_eq s _ o, items?_eq s tight rest]

theorem itemBlocks?_eq (s : Setting) (tight : Bool) : ∀ (ns : List Node) (o : Output),
    itemBlocks? s tight ns o = some (o.add (itemBlocks s o.quotes tight ns))
  | [], o => by simp [itemBlocks?, itemBlocks]
  | n :: rest, o => by
    cases n with
    | paragraph _ ns => simp [itemBlocks?, itemBlocks, itemBlocks?_eq s tight rest]
    | _ => simp [itemBlocks?, itemBlocks, block?_eq s _ o, itemBlocks?_eq s tight rest]

end

/-- The tokens of a document with this source and tree. -/
def tokens? (source : String) (acceptance : Acceptance) (superscript : Bool) (root : Node) :
    Option (List Token) :=
  (block? ⟨source.toList, acceptance, superscript, root.definitions⟩ root {}).map Output.tokens

/-- **Every document becomes its tokens without a failing access.** -/
theorem tokens?_eq (source : String) (acceptance : Acceptance) (superscript : Bool) (root : Node) :
    tokens? source acceptance superscript root
      = some (tokens source acceptance superscript root) := by
  rw [tokens?, block?_eq]
  rfl

end MarkdownPreview.Checked
