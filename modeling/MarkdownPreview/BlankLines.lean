import MarkdownPreview.Token.Basic

/-!
# Blank lines between blocks

A line break is put after every token that ends a block or a line, unless what comes next brings its
own or ends a block around it.
-/

set_option autoImplicit false

namespace MarkdownPreview.BlankLines

/-- Whether a line break belongs after a token of a kind. -/
def endsPart : Kind → Bool
  | .closing .paragraph | .closing .bulletList | .closing .heading | .closing .blockquote
  | .softbreak => true
  | _ => false

/-- Whether a token of a kind makes a line break before it unnecessary. -/
def suppresses : Kind → Bool
  | .closing .listItem | .closing .blockquote | .htmlBlock | .fence => true
  | _ => false

def addLevel : List Token → List Token
  | [] => []
  | t :: ts =>
    if endsPart t.kind && !(ts.head?.any fun next => suppresses next.kind) then
      t :: Token.newline :: addLevel ts
    else t :: addLevel ts

/-- Puts the line breaks into a document. -/
def addAll (ts : List Token) : List Token := mapLevels (fun _ => addLevel) ts

end MarkdownPreview.BlankLines
