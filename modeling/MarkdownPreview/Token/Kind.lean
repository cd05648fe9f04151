/-!
# Kinds of tokens

A document is a sequence of tokens. Some elements stand between two of them, an opening and a
closing one; `Element` lists these. `Kind` adds the tokens that stand alone. The opening and the
closing kind of an element belong together by construction (`Kind.opening e`, `Kind.closing e`),
and so do their names. -/

set_option autoImplicit false

namespace MarkdownPreview

/-- An element that is written as an opening and a closing token. -/
inductive Element where
  | paragraph
  | heading
  | blockquote
  | bulletList
  | orderedList
  | listItem
  | table
  | thead
  | tbody
  | tr
  | th
  | td
  | link
  | em
  | strong
  | strikethrough
  | sup
  deriving DecidableEq, Repr

/-- The name of an element, as it appears in the names of its tokens. -/
def Element.name : Element → String
  | .paragraph => "paragraph"
  | .heading => "heading"
  | .blockquote => "blockquote"
  | .bulletList => "bullet_list"
  | .orderedList => "ordered_list"
  | .listItem => "list_item"
  | .table => "table"
  | .thead => "thead"
  | .tbody => "tbody"
  | .tr => "tr"
  | .th => "th"
  | .td => "td"
  | .link => "link"
  | .em => "em"
  | .strong => "strong"
  | .strikethrough => "s"
  | .sup => "sup"

def Element.all : List Element :=
  [.paragraph, .heading, .blockquote, .bulletList, .orderedList, .listItem, .table, .thead, .tbody,
    .tr, .th, .td, .link, .em, .strong, .strikethrough, .sup]

inductive Kind where
  | opening (e : Element)
  | closing (e : Element)
  | hr
  | fence
  | codeBlock
  | htmlBlock
  /-- The text of a block, as a container of the tokens it consists of. -/
  | inline
  | text
  | softbreak
  | hardbreak
  | codeInline
  | htmlInline
  | image
  deriving DecidableEq, Repr

namespace Kind

def name : Kind → String
  | .opening e => e.name ++ "_open"
  | .closing e => e.name ++ "_close"
  | .hr => "hr"
  | .fence => "fence"
  | .codeBlock => "code_block"
  | .htmlBlock => "html_block"
  | .inline => "inline"
  | .text => "text"
  | .softbreak => "softbreak"
  | .hardbreak => "hardbreak"
  | .codeInline => "code_inline"
  | .htmlInline => "html_inline"
  | .image => "image"

def all : List Kind :=
  Element.all.flatMap (fun e => [.opening e, .closing e])
    ++ [.hr, .fence, .codeBlock, .htmlBlock, .inline, .text, .softbreak, .hardbreak, .codeInline,
      .htmlInline, .image]

def ofName? (name : String) : Option Kind := all.find? fun k => k.name == name

end Kind

inductive Nesting where
  | opening
  | selfClosing
  | closing
  deriving DecidableEq, Repr

/-- What a token adds to the nesting depth. -/
def Nesting.delta : Nesting → Int
  | .opening => 1
  | .selfClosing => 0
  | .closing => -1

end MarkdownPreview
