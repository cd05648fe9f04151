import MarkdownPreview.Text.Scan

/-!
# Variables in text

A reader of a tutorial has to put in values of their own. Such a place is marked with `<^>` on both
sides of a name and shown as a highlight. A name is not empty and lies on one line; it ends at the
first mark after its first character. `highlight` takes a text apart at its variables and puts it
together again, with an escaper of the caller's choice for names and one for what lies between them.
-/

set_option autoImplicit false

namespace MarkdownPreview.Variable

open Text

/-- What stands on either side of a name. -/
def mark : List Char := ['<', '^', '>']

/-- Recognises a variable and reads its name. -/
def markedName : Recogniser Char (List Char) := fun _ cs =>
  match mark.isPrefixOf? cs with
  | some (c :: rest) =>
    match cut? mark rest with
    | some (more, _) =>
      let name := c :: more
      if name.contains '\n' then none else some ⟨name, name.length + 5⟩
    | none => none
  | _ => none

def occurs (text : String) : Bool := Text.occurs markedName text.toList

/-- A highlight around finished HTML. -/
def span (html : String) : String := "<span class=\"highlight\">" ++ html ++ "</span>"

/-- The text as HTML, with its variables as highlights. -/
def highlight (plain name : String → String) (text : String) : String :=
  let p := pieces markedName text.toList
  plain (String.ofList p.first) ++ String.join (p.rest.map fun (n, after) =>
    span (name (String.ofList n)) ++ plain (String.ofList after))

end MarkdownPreview.Variable
