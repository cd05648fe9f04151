import MarkdownPreview.Markdown.Inline
import MarkdownPreview.Proofs.Text.Lines

/-!
# Text that is added in pieces

Text is added line by line, and what becomes of a line depends on what the tokens end in. So a text
that is cut goes other ways than the whole: spaces before a cut are text at first and are taken back
when a line feed follows, and a piece after a cut looks for a break that an earlier one left.

It makes no difference. Adding a text line by line is the same as adding its characters one by one
(`addText_eq_foldl`), since a character finds the tokens as the characters before it on the line
left them (`addPiece_addChar`). That knows no pieces, and so a text may be cut anywhere
(`addText_cut`).
-/

set_option autoImplicit false

namespace MarkdownPreview.Markdown

open Text

variable {ts : List Token} {c : Char} {text : List Char}

/-- Adds a character of text. Newest first. -/
def addChar (ts : List Token) (c : Char) : List Token :=
  if c = '\n' then breakToken .softbreak :: dropLastSpaces ts
  else if c = ' ' && isAfterBreak ts then ts
  else
    match ts with
    | [] => [Token.text c.toString]
    | t :: rest =>
      if t.kind = .text then { t with content := t.content.push c } :: rest
      else Token.text c.toString :: ts

/-! ## Text on one line -/

theorem joined_joined (ts : List Token) (xs ys : List Char) :
    joined (joined ts xs) ys = joined ts (xs ++ ys) := by
  cases ts with
  | nil => simp [joined, Token.text]
  | cons t ts => by_cases hk : t.kind = .text <;> simp [joined, Token.text, hk]

theorem isAfterBreak_joined (ts : List Token) (cs : List Char) :
    isAfterBreak (joined ts cs) = false := by
  cases ts with
  | nil => rfl
  | cons t ts => by_cases hk : t.kind = .text <;> simp [joined, isAfterBreak, Token.text, hk]

theorem addPiece_nil (ts : List Token) : addPiece ts [] = ts := by
  rw [addPiece, List.dropWhile_nil, ite_self]

theorem addPiece_skip (h : isAfterBreak ts = true) (piece : List Char) :
    addPiece ts (' ' :: piece) = addPiece ts piece := by
  rw [addPiece, addPiece, if_pos h, if_pos h, List.dropWhile_cons_of_pos (by decide)]

theorem addPiece_cons (hspace : c ≠ ' ' ∨ isAfterBreak ts = false) (piece : List Char) :
    addPiece ts (c :: piece) = joined ts (c :: piece) := by
  have hwhole : (if isAfterBreak ts then (c :: piece).dropWhile (· == ' ') else c :: piece)
      = c :: piece := by
    rcases hspace with hc | hbreak
    · rw [List.dropWhile_cons_of_neg (by simpa using hc), ite_self]
    · rw [hbreak]
      rfl
  rw [addPiece, hwhole]

theorem addPiece_joined (ts : List Token) (cs piece : List Char) :
    addPiece (joined ts cs) piece = joined ts (cs ++ piece) := by
  cases piece with
  | nil => rw [addPiece_nil, List.append_nil]
  | cons d piece => rw [addPiece_cons (.inr (isAfterBreak_joined ts cs)), joined_joined]

theorem addChar_eq_joined (hline : c ≠ '\n') (hspace : c ≠ ' ' ∨ isAfterBreak ts = false) :
    addChar ts c = joined ts [c] := by
  have hkeep : (decide (c = ' ') && isAfterBreak ts) = false := by
    rcases hspace with hspace | hspace <;> simp [hspace]
  unfold addChar
  rw [if_neg hline, hkeep, if_neg (by decide)]
  cases ts with
  | nil => rfl
  | cons t ts => by_cases hk : t.kind = .text <;> simp [joined, hk, Char.toString]

theorem addChar_skip (h : isAfterBreak ts = true) : addChar ts ' ' = ts := by
  unfold addChar
  rw [if_neg (by decide), h]
  rfl

theorem addChar_break (ts : List Token) :
    addChar ts '\n' = breakToken .softbreak :: dropLastSpaces ts := rfl

/-- The rest of a line finds the tokens as its first character left them. -/
theorem addPiece_addChar (hline : c ≠ '\n') (piece : List Char) :
    addPiece (addChar ts c) piece = addPiece ts (c :: piece) := by
  by_cases hspace : c ≠ ' ' ∨ isAfterBreak ts = false
  · rw [addChar_eq_joined hline hspace, addPiece_joined, addPiece_cons hspace]
    rfl
  · obtain ⟨rfl, hbreak⟩ : c = ' ' ∧ isAfterBreak ts = true := by simpa [not_or] using hspace
    rw [addChar_skip hbreak, addPiece_skip hbreak]

/-! ## Text in lines -/

theorem addText_of_lines {first : List Char} {later : List (List Char)}
    (h : lines text = first :: later) (ts : List Token) :
    addText ts text = later.foldl addLine (addPiece ts first) := by
  rw [addText, h]

theorem addText_nil (ts : List Token) : addText ts [] = ts := addPiece_nil ts

theorem addText_cons (ts : List Token) (c : Char) (text : List Char) :
    addText ts (c :: text) = addText (addChar ts c) text := by
  obtain ⟨first, later, hlines⟩ := exists_lines_eq_cons text
  by_cases hline : c = '\n'
  · subst hline
    have hcut : lines ('\n' :: text) = [] :: first :: later :=
      hlines ▸ lines_append_break List.not_mem_nil text
    rw [addText_of_lines hcut, addText_of_lines hlines, addPiece_nil, List.foldl_cons, addLine,
      addChar_break]
  · have hcut : lines (c :: text) = (c :: first) :: later := lines_cons_of_ne hline hlines
    rw [addText_of_lines hcut, addText_of_lines hlines, addPiece_addChar hline]

/-- Text is added as if its characters were added one by one. -/
theorem addText_eq_foldl (ts : List Token) (text : List Char) :
    addText ts text = text.foldl addChar ts := by
  induction text generalizing ts with
  | nil => exact addText_nil ts
  | cons c text ih => rw [addText_cons, ih, List.foldl_cons]

/-! ## Cuts -/

theorem addText_append (ts : List Token) (text rest : List Char) :
    addText ts (text ++ rest) = addText (addText ts text) rest := by
  simp only [addText_eq_foldl, List.foldl_append]

/-- **What text becomes does not depend on how it is cut into pieces.** -/
theorem addText_cut (ts : List Token) :
    (∀ text rest, addText (addText ts text) rest = addText ts (text ++ rest))
    ∧ ∀ pieces : List (List Char), pieces.foldl addText ts = addText ts pieces.flatten := by
  refine ⟨fun text rest => (addText_append ts text rest).symm, fun pieces => ?_⟩
  induction pieces generalizing ts with
  | nil => exact (addText_nil ts).symm
  | cons piece pieces ih => rw [List.foldl_cons, ih, List.flatten_cons, addText_append]

end MarkdownPreview.Markdown
