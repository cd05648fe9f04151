/-!
# What can go wrong

No rule ever fails. A failure comes from the reader of Markdown, from the name of a rule, or from
options.
-/

set_option autoImplicit false

namespace MarkdownPreview

/-- Why there is no preview. -/
inductive Failure where
  /-- The source is not Markdown that can be read; `line` and `column` count from 1. -/
  | unreadable (message : String) (line column : Nat)
  /-- There is no rule of that name. -/
  | unknownRule (name : String)
  /-- The options are not the JSON they should be. -/
  | invalidOptions
  deriving DecidableEq, Repr

def Failure.message : Failure → String
  | .unreadable message line column =>
    "Parse error at " ++ toString line ++ ":" ++ toString column ++ ": " ++ message
  | .unknownRule name => "Unknown rule: " ++ name
  | .invalidOptions => "Invalid preview options"

end MarkdownPreview
