import MarkdownPreview.Token.Basic

/-!
# Notes

A paragraph that starts with `<$>[kind]` and ends with `<$>` is a note of that kind. Its text is put
into a `<span>` whose class is the kind: the marks in its first and last token give way to the tags,
and a line break right after the opening mark goes with it. Where a mark is all its token has, or is
not at the end of it, the tag takes the place of the token.
-/

set_option autoImplicit false

namespace MarkdownPreview.Note

inductive NoteKind where
  | note
  | warning
  | info
  | draft
  deriving DecidableEq, Repr

/-- The name of a kind, in the source and as a class. -/
def NoteKind.name : NoteKind → String
  | .note => "note"
  | .warning => "warning"
  | .info => "info"
  | .draft => "draft"

def NoteKind.all : List NoteKind := [.note, .warning, .info, .draft]

/-- What ends a note. -/
def endMark : List Char := ['<', '$', '>']

/-- What starts a note of a kind. -/
def startMark (kind : NoteKind) : List Char := "<$>[".toList ++ kind.name.toList ++ [']']

/-- Whether a text is a note of a kind: its marks, and something between them. -/
def isNoteOf (text : List Char) (kind : NoteKind) : Bool :=
  match (startMark kind).isPrefixOf? text with
  | some rest => endMark.isSuffixOf rest && rest.length > endMark.length
  | none => false

/-- The kind of note a text is, if it is one. -/
def kindOf? (text : String) : Option NoteKind := NoteKind.all.find? (isNoteOf text.toList)

def openingTag (kind : NoteKind) : Token := Token.html ("<span class='" ++ kind.name ++ "'>")

def closingTag : Token := Token.html "</span>"

/-- What the closing tag and the last token of a note become. -/
def close (last : Token) : List Token :=
  match if last.kind = .text then endMark.isSuffixOf? last.content.toList else none with
  | some (c :: cs) => [Token.text (String.ofList (c :: cs)), closingTag]
  | _ => [closingTag]

/-- What the opening tag and the first token of a note become. -/
def openWith (kind : NoteKind) (first : Token) : List Token :=
  match if first.kind = .text then (startMark kind).isPrefixOf? first.content.toList else none with
  | some (c :: cs) => [openingTag kind, Token.text (String.ofList (c :: cs))]
  | _ => [openingTag kind]

/-- The level without a soft break in second place. -/
def dropSecondBreak : List Token → List Token
  | t :: next :: ts => if next.kind = .softbreak then t :: ts else t :: next :: ts
  | ts => ts

/-- Puts the tokens of a note between its tags; the end comes first, so that a note of one token
still starts with its opening tag. -/
def wrap (kind : NoteKind) (ts : List Token) : List Token :=
  match ts.getLast? with
  | none => []
  | some last =>
    match ts.dropLast ++ close last with
    | first :: rest => dropSecondBreak (openWith kind first ++ rest)
    | [] => []

/-- A token whose content is a note, with its children between the tags. -/
def wrapToken (t : Token) : Token :=
  match kindOf? t.content with
  | some kind => { t with children := t.children.map (wrap kind) }
  | none => t

/-- Wraps the notes among the blocks of a document. -/
def wrapAll (ts : List Token) : List Token := ts.map wrapToken

end MarkdownPreview.Note
