import MarkdownPreview.Token.Kind

/-!
# Tokens

A token carries what is known about one piece of a document: what it is, the HTML tag and attributes
it will be written with, its text, and the markup it was written with in the source. An `inline`
token holds the tokens of a block's text as its children, an image those of its alternative text; a
token without a list of children (`none`) differs from one whose list is empty.

Nothing ties the fields together: a token's nesting need not fit its kind.
-/

set_option autoImplicit false

namespace MarkdownPreview

/-- The attributes of a token, in the order they are written. -/
abbrev Attrs : Type := List (String × String)

namespace Attrs

/-- The value of an attribute; of several with one name the first counts. -/
def get? (attrs : Attrs) (name : String) : Option String := attrs.lookup name

/-- Gives the first attribute of a name a new value, or adds the attribute at the end. -/
def set : Attrs → (name value : String) → Attrs
  | [], name, value => [(name, value)]
  | (key, old) :: attrs, name, value =>
    if key = name then (key, value) :: attrs else (key, old) :: set attrs name value

/-- Adds an attribute at the end, whether or not there is one of the name. -/
def push (attrs : Attrs) (name value : String) : Attrs := attrs ++ [(name, value)]

end Attrs

structure Token where
  kind : Kind := .text
  /-- The HTML tag, empty if the token is not written as one. -/
  tag : String := ""
  nesting : Nesting := .selfClosing
  attrs : Attrs := []
  content : String := ""
  /-- What follows the marks that open a code fence. -/
  info : String := ""
  /-- The marks that produced the token in the source. -/
  markup : String := ""
  children : Option (List Token) := none
  /-- Whether the token belongs to the block structure and not to running text. -/
  block : Bool := false
  /-- Whether the tag is left out of the output, as for the paragraphs of a tight list. -/
  hidden : Bool := false
  deriving Repr, Inhabited

mutual

def Token.decEq : (a b : Token) → Decidable (a = b)
  | .mk kind tag nesting attrs content info markup children block hidden,
    .mk kind' tag' nesting' attrs' content' info' markup' children' block' hidden' =>
    have := decEqChildren children children'
    decidable_of_iff (kind = kind' ∧ tag = tag' ∧ nesting = nesting' ∧ attrs = attrs'
        ∧ content = content' ∧ info = info' ∧ markup = markup' ∧ children = children'
        ∧ block = block' ∧ hidden = hidden')
      (by rw [Token.mk.injEq])

def decEqChildren : (a b : Option (List Token)) → Decidable (a = b)
  | none, none => isTrue rfl
  | none, some _ => isFalse nofun
  | some _, none => isFalse nofun
  | some ts, some us =>
    have := decEqLevel ts us
    decidable_of_iff (ts = us) (by rw [Option.some.injEq])

def decEqLevel : (a b : List Token) → Decidable (a = b)
  | [], [] => isTrue rfl
  | [], _ :: _ => isFalse nofun
  | _ :: _, [] => isFalse nofun
  | t :: ts, u :: us =>
    have := t.decEq u
    have := decEqLevel ts us
    decidable_of_iff (t = u ∧ ts = us) (by rw [List.cons.injEq])

end

instance : DecidableEq Token := Token.decEq

namespace Token

def ofBlock (kind : Kind) (tag : String) (nesting : Nesting) : Token :=
  { kind, tag, nesting, block := true }

/-- The opening token of an element of running text. -/
def spanOpening (e : Element) (tag markup : String) : Token :=
  { kind := .opening e, tag, nesting := .opening, markup }

/-- The closing token of an element of running text. -/
def spanClosing (e : Element) (tag markup : String) : Token :=
  { kind := .closing e, tag, nesting := .closing, markup }

def text (content : String) : Token := { kind := .text, content }

/-- HTML that is written as it stands. -/
def html (content : String) : Token := { kind := .htmlBlock, content }

def newline : Token := text "\n"

/-- The text of a block: its source and the tokens it consists of. -/
def inline (content : String) (children : List Token) : Token :=
  { kind := .inline, content, children := some children, block := true }

/-- The children of a token, none if it has no list of them. -/
def inner (t : Token) : List Token := t.children.getD []

def setAttr (t : Token) (name value : String) : Token :=
  { t with attrs := t.attrs.set name value }

end Token

/-! ## Changing a tree level by level

A change of levels is told which kind of token a level belongs to, `none` for the top level. -/

mutual

/-- The token with `f` applied to every level below it, the deepest first. -/
def Token.mapLevels (f : Option Kind → List Token → List Token) : Token → Token
  | t@(.mk kind _ _ _ _ _ _ children _ _) => { t with children := mapChildren f kind children }

/-- The list of children of a token of a kind, if it has one, with `f` applied to every level in
it. -/
def mapChildren (f : Option Kind → List Token → List Token) (kind : Kind) :
    Option (List Token) → Option (List Token)
  | none => none
  | some ts => some (f (some kind) (mapBelow f ts))

/-- The tokens of a level with `f` applied to every level below them. -/
def mapBelow (f : Option Kind → List Token → List Token) : List Token → List Token
  | [] => []
  | t :: ts => t.mapLevels f :: mapBelow f ts

end

/-- A tree with `f` applied to every level of it, the deepest first. -/
def mapLevels (f : Option Kind → List Token → List Token) (ts : List Token) : List Token :=
  f none (mapBelow f ts)

end MarkdownPreview
