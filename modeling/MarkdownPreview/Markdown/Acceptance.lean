import MarkdownPreview.Text.Blank
import MarkdownPreview.Text.Caseless

/-!
# Which links are accepted

Lenient acceptance takes every destination. Under strict acceptance a link, an image or a
definition needs a destination on the web (`http://`, `https://`) or in the document (`#`), and a
bare address becomes a link only if it says that it is one, by a scheme or by `www.`, and does not
stand inside an `<a>` element written by hand. -/

set_option autoImplicit false

namespace MarkdownPreview.Markdown

open Text

inductive Acceptance where
  | lenient
  | strict
  deriving DecidableEq, Repr

/-- Whether a destination is on the web or in the document. -/
def isWebOrFragment (url : String) : Bool :=
  let cs := url.toList
  startsCaseless "http://".toList cs || startsCaseless "https://".toList cs || cs.head? == some '#'

def Acceptance.admits : Acceptance → String → Bool
  | .lenient, _ => true
  | .strict, url => isWebOrFragment url

/-- Whether `c` is a letter from `a` to `z` in any case. -/
def isSchemeLetter (c : Char) : Bool := (foldCase c).isLower

/-- Whether `c` can stand in a scheme after its first letter. -/
def isSchemeChar (c : Char) : Bool :=
  isSchemeLetter c || c.isDigit || c == '+' || c == '.' || c == '-'

/-- Whether an address starts with a scheme and a colon. -/
def startsWithScheme (address : String) : Bool :=
  match address.toList with
  | [] => false
  | c :: cs => isSchemeLetter c && (cs.dropWhile isSchemeChar).head? == some ':'

/-- Whether a bare address says that it is one. -/
def isExplicitAddress (address url : String) : Bool :=
  startsWithScheme address || "www.".toList.isPrefixOf address.toList
    || "mailto:".toList.isPrefixOf url.toList

/-- Whether a piece of HTML starts an `<a>` element. -/
def opensAnchor (html : String) : Bool :=
  match dropCaseless? "<a".toList html.toList with
  | some (c :: _) => c == '>' || isBlank c
  | _ => false

/-- Whether a piece of HTML ends an `<a>` element. -/
def closesAnchor (html : String) : Bool :=
  match dropCaseless? "</a".toList html.toList with
  | some cs => (trimStart cs).head? == some '>'
  | none => false

end MarkdownPreview.Markdown
