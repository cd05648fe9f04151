/-!
# Comparing without case

Keywords, URL schemes and tag names are recognised in any case. Two characters match without case
if Unicode's simple case folding takes them to the same one. Against the letters `a` to `z` that
means the capital letters of ASCII and two characters outside it: the long s (U+017F) matches `s`
and the Kelvin sign (U+212A) matches `k`.
-/

set_option autoImplicit false

namespace MarkdownPreview.Text

/-- The character that stands for `c` in a comparison without case: the small letter for every
character that matches one of `a` to `z`, the character itself otherwise. -/
def foldCase (c : Char) : Char :=
  if c = '\u017F' then 's'
  else if c = '\u212A' then 'k'
  else c.toLower

/-- The text after `word`, if it starts with it in any case. `word` is in lower case. -/
def dropCaseless? : List Char → List Char → Option (List Char)
  | [], cs => some cs
  | _ :: _, [] => none
  | w :: word, c :: cs => if foldCase c = w then dropCaseless? word cs else none

/-- Whether the text starts with `word` in any case. `word` is in lower case. -/
def startsCaseless (word cs : List Char) : Bool := (dropCaseless? word cs).isSome

end MarkdownPreview.Text
