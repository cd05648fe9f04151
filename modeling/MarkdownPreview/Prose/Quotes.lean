import MarkdownPreview.Text.Scan
import MarkdownPreview.Prose.Glyph

/-!
# Setting quotes

Straight quotes become typographic ones in twelve passes over the glyphs of a text. Each pass reads
what the one before it left, so their order is part of the rule: pairs are set before single marks,
double marks before apostrophes, and what is still straight at the end becomes a reference.

A *gap* is a space or a line break (`Glyph.isGap`). Most passes are replacements (`Text.replace`):
they take the matches of a recogniser from the left, and a glyph that one match covers is not seen
by the next. The pass over apostrophes that end a word (`endApostrophes`) carries along whether a
word is there to end, and is written as a recursion of its own.
-/

set_option autoImplicit false

namespace MarkdownPreview.Prose

open Text

/-- A pass that replaces what it recognises. -/
abbrev Pass : Type := Recogniser Glyph (List Glyph)

/-- The glyphs up to the next straight double quote. -/
def quoted (gs : List Glyph) : List Glyph := gs.takeWhile (· != straight)

/-- The glyphs from the next straight double quote on. -/
def fromQuote (gs : List Glyph) : List Glyph := gs.dropWhile (· != straight)

/-! ## Double quotes -/

/-- Two quotes with a space outside each of them, or at the two ends of the whole text, are a pair;
the blanks just inside it are dropped. -/
def detachedPair : Pass
  | _, .char ' ' :: .char '"' :: gs =>
    match fromQuote gs with
    | .char '"' :: .char ' ' :: _ =>
      some ⟨.char ' ' :: ldquo :: (strip Glyph.isBlank (quoted gs) ++ [rdquo, .char ' ']),
        (quoted gs).length + 3⟩
    | _ => none
  | true, .char '"' :: gs =>
    match fromQuote gs with
    | [.char '"'] =>
      some ⟨ldquo :: (strip Glyph.isBlank (quoted gs) ++ [rdquo]), (quoted gs).length + 1⟩
    | _ => none
  | _, _ => none

/-- Two quotes are a pair if an equals sign touches one of them from outside. -/
def assignedPair : Pass
  | _, .char '=' :: .char '"' :: gs =>
    match fromQuote gs with
    | .char '"' :: _ => some ⟨.char '=' :: ldquo :: (quoted gs ++ [rdquo]), (quoted gs).length + 2⟩
    | _ => none
  | _, .char '"' :: gs =>
    match fromQuote gs with
    | .char '"' :: .char '=' :: _ =>
      some ⟨ldquo :: (quoted gs ++ [rdquo, .char '=']), (quoted gs).length + 2⟩
    | _ => none
  | _, _ => none

/-- Sets a double quote, straight or already curled this way, as `mark`. -/
def setAs (curled : Char) (mark g : Glyph) : Glyph :=
  if g = straight ∨ g = .char curled then mark else g

/-- A quote opens at the start of the text, between a gap and a word, and before an apostrophe that
ends the text. -/
def openDouble : Pass
  | _, .char '“' :: _ => some ⟨[ldquo], 0⟩
  | true, .char '"' :: _ => some ⟨[ldquo], 0⟩
  | _, [.char '"', .char '\''] => some ⟨[ldquo, .char '\''], 1⟩
  | _, gap :: .char '"' :: g :: _ =>
    if gap.isGap && !g.isGap then some ⟨[gap, ldquo, setAs '“' ldquo g], 2⟩ else none
  | _, _ => none

/-- A quote closes between a word and a gap, and at the end of the text. -/
def closeDouble : Pass
  | _, .char '”' :: _ => some ⟨[rdquo], 0⟩
  | _, [.char '"'] => some ⟨[rdquo], 0⟩
  | _, g :: .char '"' :: gap :: _ =>
    if !g.isGap && gap.isGap then some ⟨[setAs '”' rdquo g, rdquo, gap], 2⟩ else none
  | _, _ => none

/-! ## Single quotes -/

/-- Two apostrophes between a gap and a word end one quotation and open another. -/
def apostrophesBeforeWord : Pass
  | _, gap :: .char '\'' :: .char '\'' :: g :: _ =>
    if gap.isGap && !g.isGap then some ⟨[gap, rsquo, lsquo, g], 3⟩ else none
  | _, _ => none

/-- Two apostrophes after a word are an opening double quote, unless they end the text; after a
closing parenthesis they are one even there. Of three apostrophes the first two count. -/
def apostrophesAfterWord : Pass
  | _, g :: .char '\'' :: .char '\'' :: gs =>
    if g.isGap then none
    else if gs = [] ∧ g ≠ .char ')' then some ⟨[g, .char '\'', .char '\''], 2⟩
    else if g = .char '\'' then some ⟨[ldquo, g], 2⟩
    else some ⟨[g, ldquo], 2⟩
  | _, _ => none

/-- Two apostrophes that end the text are a closing double quote. -/
def apostrophesAtEnd : Pass
  | _, [.char '\'', .char '\''] => some ⟨[rdquo], 1⟩
  | _, _ => none

/-- An apostrophe ends a word if a space or the end of the text comes after it. `inWord` says
whether there are glyphs since the last apostrophe, or since the space after the last one set. -/
def endWordApostrophes : Bool → List Glyph → List Glyph
  | _, [] => []
  | true, [.char '\''] => [rsquo]
  | true, .char '\'' :: .char ' ' :: gs => rsquo :: .char ' ' :: endWordApostrophes false gs
  | _, .char '\'' :: gs => .char '\'' :: endWordApostrophes false gs
  | _, g :: gs => g :: endWordApostrophes true gs

/-- Sets the apostrophes that end a word, and one that is the whole text. -/
def endApostrophes (gs : List Glyph) : List Glyph :=
  if gs = [.char '\''] then [rsquo] else endWordApostrophes false gs

/-- An apostrophe just inside an opening parenthesis opens a quotation. -/
def apostropheAfterParen : Pass := exactly [.char '(', .char '\''] [.char '(', lsquo]

/-- An apostrophe just inside a closing parenthesis ends a quotation. -/
def apostropheBeforeParen : Pass := exactly [.char '\'', .char ')'] [rsquo, .char ')']

/-- The apostrophe of `'ll` and `'s`, and one after an ampersand or a dollar sign. -/
def contraction : Pass
  | _, .char '$' :: .char '\'' :: _ => some ⟨[.char '$', rsquo], 1⟩
  | _, .entity .amp :: .char '\'' :: _ => some ⟨[.entity .amp, rsquo], 1⟩
  | _, .char '\'' :: .char 'l' :: .char 'l' :: _ => some ⟨[rsquo, .char 'l', .char 'l'], 2⟩
  | _, .char '\'' :: .char 's' :: _ => some ⟨[rsquo, .char 's'], 1⟩
  | _, _ => none

/-! ## All passes -/

/-- A straight double quote that no pass has set. -/
def leftover (g : Glyph) : Glyph := if g = straight then .entity .quot else g

def setQuotes (gs : List Glyph) : List Glyph :=
  gs |> replace detachedPair
    |> replace assignedPair
    |> replace openDouble
    |> replace closeDouble
    |> replace apostrophesBeforeWord
    |> replace apostrophesAfterWord
    |> replace apostrophesAtEnd
    |> endApostrophes
    |> replace apostropheAfterParen
    |> replace apostropheBeforeParen
    |> replace contraction
    |> List.map leftover

end MarkdownPreview.Prose
