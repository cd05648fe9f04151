import MarkdownPreview.Token.Basic

/-!
# Links without endorsement

Every link of a document is marked with `rel="nofollow"`, in place of any other relation it gives.
Which links there are at all is decided where a document becomes tokens
(`MarkdownPreview.Markdown.Acceptance`).
-/

set_option autoImplicit false

namespace MarkdownPreview.Markdown

/-- The opening token of a link with its mark; any other token as it is. -/
def markLink (t : Token) : Token :=
  if t.kind = .opening .link then t.setAttr "rel" "nofollow" else t

def markLinks (ts : List Token) : List Token := mapLevels (fun _ => List.map markLink) ts

end MarkdownPreview.Markdown
