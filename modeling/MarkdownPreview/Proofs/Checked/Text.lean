import MarkdownPreview.Proofs.Text.Bytes
import MarkdownPreview.Proofs.Text.Trim

/-!
# Stretches of a text that have to be there

A search says where it has found something by a number of bytes, and what stands before or after it
is then a slice of the text. Slices (`Text.takeBytes?`, `Text.dropBytes?`, `Text.slice?`) fail if
they do not start and end between two characters. So do the two operations that change a text at a
place. Here the places that searches give are shown to be right ones.
-/

set_option autoImplicit false

namespace MarkdownPreview.Checked

open Text

/-! ## Searching -/

/-- The place of the first occurrence of a mark. -/
def find? (mark : List Char) : List Char → Option Nat
  | [] => none
  | c :: cs =>
    if mark.isPrefixOf (c :: cs) then some 0 else (find? mark cs).map (c.utf8Size + ·)

/-- The place of a mark is the size of what stands before it. -/
theorem find?_eq (mark cs : List Char) :
    find? mark cs = (cut? mark cs).map fun p => byteSize p.1 := by
  induction cs with
  | nil => rfl
  | cons c cs ih =>
    rw [find?, cut?]
    by_cases h : mark <+: c :: cs
    · obtain ⟨rest, hrest⟩ := h
      rw [if_pos (List.isPrefixOf_iff_prefix.mpr ⟨rest, hrest⟩),
        List.isPrefixOf?_eq_some_iff_append_eq.mpr hrest]
      rfl
    · rw [if_neg (fun hpre => h (List.isPrefixOf_iff_prefix.mp hpre)),
        isPrefixOf?_eq_none_iff.mpr h, ih, Option.map_map, Option.map_map]
      simp only [Function.comp_def, byteSize_cons]

/-- What stands before a mark that has been found. -/
theorem takeBytes?_find? {mark cs before after : List Char}
    (h : cut? mark cs = some (before, after)) : takeBytes? (byteSize before) cs = some before := by
  rw [append_of_cut?_eq_some h, takeBytes?_byteSize]

/-- What stands after a mark that has been found. -/
theorem dropBytes?_find? {mark cs before after : List Char}
    (h : cut? mark cs = some (before, after)) :
    dropBytes? (byteSize before + byteSize mark) cs = some after := by
  rw [append_of_cut?_eq_some h, ← List.append_assoc, ← byteSize_append, dropBytes?_byteSize]

/-! ## Changing a text at a place -/

/-- The text cut off after `n` bytes; it stays as it is if it has fewer. -/
def truncate? (n : Nat) (cs : List Char) : Option (List Char) :=
  if byteSize cs < n then some cs else takeBytes? n cs

/-- Puts a text in at a place. -/
def insertAt? (n : Nat) (text cs : List Char) : Option (List Char) := do
  let before ← takeBytes? n cs
  let after ← dropBytes? n cs
  return before ++ text ++ after

theorem truncate?_prefix {us cs : List Char} (h : us <+: cs) :
    truncate? (byteSize us) cs = some us := by
  obtain ⟨vs, rfl⟩ := h
  have hsize := byteSize_append us vs
  rw [truncate?, if_neg (by omega), takeBytes?_byteSize]

/-- Cutting off what a trimmed text has lost. -/
theorem truncate?_dropEndWhile (p : Char → Bool) (cs : List Char) :
    truncate? (byteSize (dropEndWhile p cs)) cs = some (dropEndWhile p cs) := by
  obtain ⟨n, hn⟩ := exists_dropEndWhile_eq_take p cs
  exact truncate?_prefix (hn ▸ List.take_prefix n cs)

theorem insertAt?_zero (text cs : List Char) : insertAt? 0 text cs = some (text ++ cs) := by
  cases cs <;> rfl

/-! ## The matches of a recogniser -/

variable {β : Type}

/-- A match: where it starts, where it ends, and what was read. -/
structure Match (β : Type) where
  start : Nat
  stop : Nat
  value : β

/-- The matches of a recogniser in a text that starts at place `place` and of which `skip`
characters still belong to the last match (`Text.scanFrom`). -/
def matchesFrom (m : Recogniser Char β) : Bool → (skip place : Nat) → List Char → List (Match β)
  | _, _, _, [] => []
  | _, skip + 1, place, c :: cs => matchesFrom m false skip (place + c.utf8Size) cs
  | atStart, 0, place, c :: cs =>
    match m atStart (c :: cs) with
    | some hit =>
      ⟨place, place + byteSize ((c :: cs).take (hit.more + 1)), hit.value⟩
        :: matchesFrom m false hit.more (place + c.utf8Size) cs
    | none => matchesFrom m false 0 (place + c.utf8Size) cs

/-- The matches of a recogniser, from the left. -/
def allMatches (m : Recogniser Char β) (cs : List Char) : List (Match β) := matchesFrom m true 0 0 cs

theorem matchesFrom_eq {m : Recogniser Char β} (hm : Steady m) (b : Bool) (skip place : Nat)
    (cs : List Char) : matchesFrom m b skip place cs
      = matchesFrom m true 0 (place + byteSize (cs.take skip)) (cs.drop skip) := by
  induction cs generalizing b skip place with
  | nil => simp [matchesFrom]
  | cons c cs ih =>
    cases skip with
    | zero =>
      rw [List.take_zero, List.drop_zero, matchesFrom, matchesFrom, hm b]
      rfl
    | succ skip =>
      rw [matchesFrom, ih, List.take_succ_cons, List.drop_succ_cons, byteSize_cons, Nat.add_assoc]

end MarkdownPreview.Checked
