import MarkdownPreview.Proofs.Text.Trim

/-!
# HTML that a preview may consist of

`IsMarkup` says of a piece of HTML that it is made of text and of tags, and that the tags and their
attributes are of a fixed choice (`tagNames`, `attributeNames`). Text has no `<`, so nothing in it
can start a tag. The value of an attribute stands between two quotes; it has no such quote, so
nothing in it can end the value, and no `<` either.
-/

set_option autoImplicit false

namespace MarkdownPreview.Html

/-- The tags that may be written. -/
def tagNames : List String :=
  ["p", "h1", "h2", "h3", "h4", "h5", "h6", "blockquote", "ul", "ol", "li", "table", "thead",
    "tbody", "tr", "th", "td", "hr", "pre", "code", "br", "a", "img", "em", "strong", "s", "sup",
    "span", "div"]

/-- The attributes that may be written. -/
def attributeNames : List String :=
  ["href", "src", "alt", "title", "rel", "id", "class", "style", "start", "data-prefix"]

/-- An attribute of a tag, with the quote around its value. -/
structure Attribute where
  name : String
  quote : Char
  value : List Char

/-- An attribute as it is written. -/
def Attribute.chars (a : Attribute) : List Char :=
  ' ' :: a.name.toList ++ '=' :: a.quote :: a.value ++ [a.quote]

/-- An attribute whose value ends at the quote that ends it. -/
structure Attribute.Sound (a : Attribute) : Prop where
  name : a.name ∈ attributeNames
  quote : a.quote = '"' ∨ a.quote = '\''
  bracket : '<' ∉ a.value
  unquoted : a.quote ∉ a.value

theorem Attribute.sound {name value : String} (hn : name ∈ attributeNames)
    (hb : '<' ∉ value.toList) (hq : '"' ∉ value.toList) :
    Attribute.Sound ⟨name, '"', value.toList⟩ :=
  ⟨hn, .inl rfl, hb, hq⟩

/-- A piece of HTML: text, or a tag. -/
inductive Piece where
  | text (cs : List Char)
  /-- An opening tag, or a tag of an element without content; `slash` says whether it is closed with
  a slash. -/
  | opening (name : String) (attrs : List Attribute) (slash : Bool)
  | closing (name : String)

/-- A piece as it is written. -/
def Piece.chars : Piece → List Char
  | .text cs => cs
  | .opening name attrs slash =>
    '<' :: name.toList ++ attrs.flatMap Attribute.chars ++ (if slash then [' ', '/'] else [])
      ++ ['>']
  | .closing name => '<' :: '/' :: name.toList ++ ['>']

/-- A piece in which nothing starts a tag but what is meant to. -/
def Piece.Sound : Piece → Prop
  | .text cs => '<' ∉ cs
  | .opening name attrs _ => name ∈ tagNames ∧ ∀ a ∈ attrs, a.Sound
  | .closing name => name ∈ tagNames

/-- HTML that is made of sound pieces. -/
def IsMarkup (html : String) : Prop :=
  ∃ pieces : List Piece, (∀ p ∈ pieces, p.Sound) ∧ html.toList = pieces.flatMap Piece.chars

/-! ## Putting HTML together -/

variable {a b : String}

theorem IsMarkup.piece (p : Piece) (hp : p.Sound) (h : a.toList = p.chars) : IsMarkup a :=
  ⟨[p], List.forall_mem_singleton.mpr hp, by rw [h, List.flatMap_singleton]⟩

theorem IsMarkup.text (h : '<' ∉ a.toList) : IsMarkup a := .piece (.text a.toList) h rfl

theorem IsMarkup.append (ha : IsMarkup a) (hb : IsMarkup b) : IsMarkup (a ++ b) := by
  obtain ⟨ps, hps, hpa⟩ := ha
  obtain ⟨qs, hqs, hqb⟩ := hb
  refine ⟨ps ++ qs, fun p hp => (List.mem_append.mp hp).elim (hps p) (hqs p), ?_⟩
  rw [String.toList_append, hpa, hqb, List.flatMap_append]

theorem IsMarkup.empty : IsMarkup "" := .text (by decide)

theorem IsMarkup.join {parts : List String} (h : ∀ s ∈ parts, IsMarkup s) :
    IsMarkup (String.join parts) := by
  induction parts with
  | nil => exact .empty
  | cons s parts ih =>
    rw [List.forall_mem_cons] at h
    rw [String.join_cons]
    exact h.1.append (ih h.2)

theorem IsMarkup.opening (name : String) (attrs : List Attribute) (slash : Bool)
    (hn : name ∈ tagNames) (ha : ∀ a ∈ attrs, a.Sound)
    (h : a.toList = (Piece.opening name attrs slash).chars) : IsMarkup a :=
  .piece (.opening name attrs slash) ⟨hn, ha⟩ h

/-- A tag without attributes. -/
theorem IsMarkup.plainOpening (name : String) (hn : name ∈ tagNames)
    (h : a.toList = '<' :: name.toList ++ ['>']) : IsMarkup a :=
  .opening name [] false hn (List.forall_mem_nil _) (by simp [h, Piece.chars])

theorem IsMarkup.closing (name : String) (hn : name ∈ tagNames)
    (h : a.toList = '<' :: '/' :: name.toList ++ ['>']) : IsMarkup a :=
  .piece (.closing name) hn h

/-! ## Trimming -/

/-- Tags end in a character that is not blank, and nothing is trimmed off them. -/
theorem dropEndWhile_tag (cs : List Char) :
    Text.dropEndWhile Text.isBlank (cs ++ ['>']) = cs ++ ['>'] := by
  have hmark : Text.isBlank '>' = false := by decide
  rw [Text.dropEndWhile_concat, hmark]
  rfl

end MarkdownPreview.Html
