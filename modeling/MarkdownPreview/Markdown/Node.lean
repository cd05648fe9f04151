/-!
# Markdown trees

What a Markdown parser makes of a text: a tree of nodes, each with the range of source bytes it was
read from, where that is known. The tree says what a node is, but not everything about how it was
written; for that one has to look at the source.
-/

set_option autoImplicit false

namespace MarkdownPreview.Markdown

/-- A range of bytes of the source: from `start` up to `stop`. -/
structure Extent where
  start : Nat
  stop : Nat
  deriving Repr, DecidableEq

inductive Alignment where
  | left
  | right
  | center
  | unspecified
  deriving Repr, DecidableEq

inductive Node where
  | root (extent? : Option Extent) (children : List Node)
  | paragraph (extent? : Option Extent) (children : List Node)
  | heading (extent? : Option Extent) (depth : Nat) (children : List Node)
  | blockquote (extent? : Option Extent) (children : List Node)
  /-- A list; it is spread if a blank line parts its items. -/
  | list (extent? : Option Extent) (ordered : Bool) (start? : Option Nat) (spread : Bool)
    (children : List Node)
  /-- An item of a list; it is spread if a blank line parts its blocks. -/
  | listItem (extent? : Option Extent) (spread : Bool) (children : List Node)
  /-- A code block, fenced or indented. -/
  | code (extent? : Option Extent) (value : String) (lang? rest? : Option String)
  | html (extent? : Option Extent) (value : String)
  | math (extent? : Option Extent) (value : String)
  | thematicBreak (extent? : Option Extent)
  | table (extent? : Option Extent) (columns : List Alignment) (children : List Node)
  | tableRow (extent? : Option Extent) (children : List Node)
  | tableCell (extent? : Option Extent) (children : List Node)
  | definition (extent? : Option Extent) (identifier url : String) (title? : Option String)
  | footnoteDefinition (extent? : Option Extent) (identifier : String) (children : List Node)
  | text (extent? : Option Extent) (value : String)
  | lineBreak (extent? : Option Extent)
  | inlineCode (extent? : Option Extent) (value : String)
  | inlineMath (extent? : Option Extent) (value : String)
  | emphasis (extent? : Option Extent) (children : List Node)
  | strong (extent? : Option Extent) (children : List Node)
  | delete (extent? : Option Extent) (children : List Node)
  | link (extent? : Option Extent) (url : String) (title? : Option String) (children : List Node)
  /-- A link whose destination a definition gives. -/
  | linkReference (extent? : Option Extent) (identifier : String) (children : List Node)
  | image (extent? : Option Extent) (url alt : String) (title? : Option String)
  /-- An image whose source a definition gives. -/
  | imageReference (extent? : Option Extent) (identifier alt : String)
  deriving Repr

/-- Where a node was read from. -/
def Node.extent? : Node → Option Extent
  | .root e _ | .paragraph e _ | .heading e _ _ | .blockquote e _ | .list e _ _ _ _
  | .listItem e _ _ | .code e _ _ _ | .html e _ | .math e _ | .thematicBreak e | .table e _ _
  | .tableRow e _ | .tableCell e _ | .definition e _ _ _ | .footnoteDefinition e _ _ | .text e _
  | .lineBreak e | .inlineCode e _ | .inlineMath e _ | .emphasis e _ | .strong e _ | .delete e _
  | .link e _ _ _ | .linkReference e _ _ | .image e _ _ _ | .imageReference e _ _ => e

/-! ## Definitions of references -/

/-- What a definition says about a reference. -/
structure Destination where
  url : String
  title? : Option String
  deriving Repr, DecidableEq

mutual

/-- The definitions in a tree, in document order. -/
def Node.definitions : Node → List (String × Destination)
  | .definition _ identifier url title? => [(identifier, ⟨url, title?⟩)]
  | .root _ ns | .paragraph _ ns | .heading _ _ ns | .blockquote _ ns | .list _ _ _ _ ns
  | .listItem _ _ ns | .table _ _ ns | .tableRow _ ns | .tableCell _ ns
  | .footnoteDefinition _ _ ns | .emphasis _ ns | .strong _ ns | .delete _ ns | .link _ _ _ ns
  | .linkReference _ _ ns => definitionsOf ns
  | _ => []

def definitionsOf : List Node → List (String × Destination)
  | [] => []
  | n :: ns => n.definitions ++ definitionsOf ns

end

end MarkdownPreview.Markdown
