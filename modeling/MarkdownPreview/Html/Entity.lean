/-!
# Character references

The named character references that appear in the output. Each is written `&name;`, and no name
contains a character that would need escaping itself.
-/

set_option autoImplicit false

namespace MarkdownPreview.Html

/-- A named character reference. -/
inductive Entity where
  | amp
  | lt
  | gt
  | quot
  /-- The left double quotation mark. -/
  | ldquo
  /-- The right double quotation mark. -/
  | rdquo
  /-- The left single quotation mark. -/
  | lsquo
  /-- The right single quotation mark, which is also the apostrophe. -/
  | rsquo
  | reg
  | copy
  | trade
  deriving DecidableEq, Repr

/-- The name between the ampersand and the semicolon. -/
def Entity.name : Entity → String
  | .amp => "amp"
  | .lt => "lt"
  | .gt => "gt"
  | .quot => "quot"
  | .ldquo => "ldquo"
  | .rdquo => "rdquo"
  | .lsquo => "lsquo"
  | .rsquo => "rsquo"
  | .reg => "reg"
  | .copy => "copy"
  | .trade => "trade"

/-- The reference as it is written. -/
def Entity.chars (e : Entity) : List Char := '&' :: e.name.toList ++ [';']

end MarkdownPreview.Html
