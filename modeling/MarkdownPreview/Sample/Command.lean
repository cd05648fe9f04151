import MarkdownPreview.Prose.Escape
import MarkdownPreview.Sample.Label

/-!
# Commands as code samples

A code sample whose language is `command`, `super_user` or `custom_prefix(…)` is a series of
commands to type. Each of its lines is shown behind a prompt, and it is coloured as a shell script.
-/

set_option autoImplicit false

namespace MarkdownPreview.Sample

open Text

/-- Whose commands a sample shows. -/
inductive Command where
  | user
  | superUser
  /-- Commands behind a prompt of the author's choice. -/
  | custom (prompt : String)
  deriving Repr, DecidableEq

namespace Command

/-- Reads the language of a sample. Only the name of the third form may be in any case. -/
def ofLanguage? (language : String) : Option Command :=
  if language = "command" then some .user
  else if language = "super_user" then some .superUser
  else
    ((dropCaseless? "custom_prefix(".toList language.toList).bind (beforeFinal? ')')).map .custom

def className : Command → String
  | .user => "command"
  | .superUser => "super_user"
  | .custom _ => "custom_prefix"

/-- The prompt, as HTML. A lone `>` is left as it is, which is harmless in an attribute. -/
def prompt : Command → String
  | .user => "$"
  | .superUser => "#"
  | .custom p => if p = ">" then p else Prose.escape p

end Command

end MarkdownPreview.Sample
