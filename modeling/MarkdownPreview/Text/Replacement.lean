import MarkdownPreview.Text.Scan

/-!
# Replacing one text by another

A replacement puts one fixed text in the place of another wherever that occurs. Several are applied
in turn, each to what the one before it left. -/

set_option autoImplicit false

namespace MarkdownPreview.Text

/-- A text to look for, and the text to put in its place. -/
structure Replacement where
  find : String
  insert : String
  deriving Repr, DecidableEq

namespace Replacement

/-- The text with every place where `find` occurs replaced, from the left and without overlaps. An
empty `find` occurs before every character and at the end. -/
def apply (r : Replacement) (text : String) : String :=
  if r.find.isEmpty then
    String.ofList (text.toList.flatMap (fun c => r.insert.toList ++ [c]) ++ r.insert.toList)
  else String.ofList (replace (exactly r.find.toList r.insert.toList) text.toList)

/-- The text after several replacements in turn. -/
def applyAll (rs : List Replacement) (text : String) : String :=
  rs.foldl (fun text r => r.apply text) text

end Replacement

end MarkdownPreview.Text
