import MarkdownPreview.Html.Escape
import MarkdownPreview.Token.Basic

/-!
# Attributes as HTML

An attribute is written as ` name="value"`. Names and values are escaped, so that neither can end
the value or the tag. -/

set_option autoImplicit false

namespace MarkdownPreview.Html

/-- One attribute, with the space before it; name and value are escaped. -/
def attrHtml (name value : String) : String := " " ++ escape name ++ "=\"" ++ escape value ++ "\""

def attrsHtml (attrs : Attrs) : String :=
  String.join (attrs.map fun (name, value) => attrHtml name value)

end MarkdownPreview.Html
