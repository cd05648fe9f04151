/-!
# Positions counted in bytes

Positions in a source text are offsets into its UTF-8 bytes. A text is kept as its characters, each
of which knows how many bytes it takes (`Char.utf8Size`), so a range of bytes is found by walking
the characters and counting. A range has text only if it lies inside the source and neither end
falls inside a character; otherwise there is none (`none`), which is not the same as empty text.
-/

set_option autoImplicit false

namespace MarkdownPreview.Text

/-- The text after its first `n` bytes, if a character ends there. -/
def dropBytes? : Nat → List Char → Option (List Char)
  | 0, cs => some cs
  | _ + 1, [] => none
  | n + 1, c :: cs => if c.utf8Size ≤ n + 1 then dropBytes? (n + 1 - c.utf8Size) cs else none

/-- The first `n` bytes of a text, if a character ends there. -/
def takeBytes? : Nat → List Char → Option (List Char)
  | 0, _ => some []
  | _ + 1, [] => none
  | n + 1, c :: cs =>
    if c.utf8Size ≤ n + 1 then (takeBytes? (n + 1 - c.utf8Size) cs).map (c :: ·) else none

/-- The text from byte `start` up to byte `stop`. -/
def slice? (start stop : Nat) (cs : List Char) : Option (List Char) :=
  if start ≤ stop then (dropBytes? start cs).bind (takeBytes? (stop - start)) else none

end MarkdownPreview.Text
