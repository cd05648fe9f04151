import MarkdownPreview.Token.Basic

/-!
# The size and the depth of a tree

How many tokens there are in a tree, and how many levels one below the other. Both bound how far
something that goes through a tree can go.
-/

set_option autoImplicit false

namespace MarkdownPreview

mutual

/-- The number of tokens in a tree, its root included. -/
def Token.size : Token → Nat
  | .mk _ _ _ _ _ _ _ children _ _ => childrenSize children + 1

def childrenSize : Option (List Token) → Nat
  | none => 0
  | some ts => levelSize ts

def levelSize : List Token → Nat
  | [] => 0
  | t :: ts => t.size + levelSize ts

end

mutual

/-- The number of levels below a token. -/
def Token.depth : Token → Nat
  | .mk _ _ _ _ _ _ _ children _ _ => childrenDepth children

def childrenDepth : Option (List Token) → Nat
  | none => 0
  | some ts => levelDepth ts + 1

def levelDepth : List Token → Nat
  | [] => 0
  | t :: ts => max t.depth (levelDepth ts)

end

end MarkdownPreview
