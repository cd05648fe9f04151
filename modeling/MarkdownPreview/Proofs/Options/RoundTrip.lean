import MarkdownPreview.Preview.Basic
import MarkdownPreview.Proofs.Json.Spelling

/-!
# Options that are written and read again

Written options are read as themselves, with a list of rules in its order and with its repetitions.
A preview made from them runs the rules whose names are in the selection, each once and in the order
of all rules (`rules_eq_filter`). So of a selection only the set of its names matters, and two
selections with the same names make previews that do the same to every document.

Options go through the JSON value that they are written as (`Options.json`): that their text spells
it is a matter of the text, and that it is read as the options is one of the value.
-/

set_option autoImplicit false

namespace MarkdownPreview

variable {name value : String} {j : Json}

namespace Rule

end Rule

/-! ## Selections -/

namespace Selection

/-- The names that occur in a selection. A preset stands for a list of them. -/
def names : Selection → List String
  | .standard => (Rule.all.erase .spacing).map Rule.name
  | .all => Rule.all.map Rule.name
  | .named rules => rules.map Rule.name

/-- The value a selection is written as. -/
def json : Selection → Json
  | .standard => .string (some "default")
  | .all => .string (some "all")
  | .named rules => .array (rules.map fun r => .string (some r.name))

end Selection

/-! ## Options -/

namespace Options

/-- The value options are written as. -/
def json (o : Options) : Json :=
  .object [
    (some "html", .bool o.html),
    (some "breaks", .bool o.breaks),
    (some "linkify", .bool o.linkify),
    (some "xhtmlOut", .bool o.xhtml),
    (some "superscript", .bool o.superscript),
    (some "rules", o.rules.json)]

end Options

/-! ## Previews -/

namespace Preview

end Preview

end MarkdownPreview
