/-!
# Blank characters, and the two things done with them

A blank is any character with the Unicode property `White_Space`: twenty-five characters, most of
them outside ASCII. Lean's own `Char.isWhitespace` knows four of them, so the class is written out
here (`isBlank_of_isWhitespace` says it is the larger one).

Text is trimmed of blanks at its ends (`trim`, `trimStart`, `trimEnd`) and cut into the words that
blanks separate (`words`). `fields` is the more general cut that keeps empty stretches; lines are
cut with it too (`MarkdownPreview.Text.Lines`).
-/

set_option autoImplicit false

namespace MarkdownPreview.Text

/-- Whether `c` has the Unicode property `White_Space`. -/
def isBlank (c : Char) : Bool :=
  let n := c.toNat
  (0x09 ≤ n && n ≤ 0x0D) || n == 0x20 || n == 0x85 || n == 0xA0 || n == 0x1680
    || (0x2000 ≤ n && n ≤ 0x200A) || n == 0x2028 || n == 0x2029 || n == 0x202F
    || n == 0x205F || n == 0x3000

/-- Every character that core counts as whitespace is blank. -/
theorem isBlank_of_isWhitespace {c : Char} (h : c.isWhitespace = true) : isBlank c = true := by
  simp only [Char.isWhitespace, Bool.or_eq_true, decide_eq_true_eq] at h
  rcases h with ((rfl | rfl) | rfl) | rfl <;> decide

/-! ## Trimming -/

def trimStart (cs : List Char) : List Char := cs.dropWhile isBlank

/-- The list without the longest run at its end whose elements all satisfy `p`. -/
def dropEndWhile {α : Type} (p : α → Bool) : List α → List α
  | [] => []
  | x :: xs =>
    match dropEndWhile p xs with
    | [] => if p x then [] else [x]
    | y :: ys => x :: y :: ys

def trimEnd (cs : List Char) : List Char := dropEndWhile isBlank cs

/-- The list without the elements satisfying `p` that it starts and ends with. -/
def strip {α : Type} (p : α → Bool) (xs : List α) : List α := dropEndWhile p (xs.dropWhile p)

def trim (cs : List Char) : List Char := strip isBlank cs

/-! ## Cutting at separators -/

/-- The stretches of a list between the elements that satisfy `p`, empty stretches included; there
is always one more stretch than there are separators. -/
def fields {α : Type} (p : α → Bool) : List α → List (List α)
  | [] => [[]]
  | x :: xs =>
    if p x then [] :: fields p xs
    else match fields p xs with
      | [] => [[x]]
      | f :: fs => (x :: f) :: fs

theorem fields_ne_nil {α : Type} (p : α → Bool) (xs : List α) : fields p xs ≠ [] := by
  cases xs with
  | nil => simp [fields]
  | cons x xs =>
    simp only [fields]
    split
    · simp
    · split <;> simp

/-- The words of a text: its longest runs without blanks. -/
def words (cs : List Char) : List (List Char) :=
  (fields isBlank cs).filter fun w => !w.isEmpty

/-- The first word of a text, empty if there is none. -/
def firstWord (cs : List Char) : List Char :=
  (trimStart cs).takeWhile fun c => !isBlank c

end MarkdownPreview.Text
