import Mathlib.Data.List.Basic
import MarkdownPreview.Text.Lines

/-!
# Cutting into lines and joining lines

A field has no separator in it, and a separator at the end of a list leaves an empty field behind it
(`fields_concat`). So a text that ends in a line feed, or is empty, has an empty line. Lines that
are joined are the lines of the whole (`lines_joinLines`), and a text is its lines joined
(`joinLines_lines`). What cuts at a line feed into two texts, goes line by line
(`joinLines_morphism`).
-/

set_option autoImplicit false

namespace MarkdownPreview.Text

variable {α β : Type} {p : α → Bool}

theorem not_of_mem_fields {xs f : List α} (h : f ∈ fields p xs) : ∀ x ∈ f, p x = false := by
  induction xs generalizing f with
  | nil =>
    rw [List.mem_singleton.mp h]
    exact List.forall_mem_nil _
  | cons x xs ih =>
    rw [fields] at h
    split at h
    · rcases List.mem_cons.mp h with rfl | h
      · exact List.forall_mem_nil _
      · exact ih h
    · rename_i hx
      have hx : p x = false := by simpa using hx
      split at h
      · rename_i hnil
        exact absurd hnil (fields_ne_nil p xs)
      · rename_i g gs hcons
        rw [hcons] at ih
        rcases List.mem_cons.mp h with rfl | h
        · exact List.forall_mem_cons.mpr ⟨hx, ih List.mem_cons_self⟩
        · exact ih (List.mem_cons_of_mem g h)

theorem fields_concat (xs : List α) {x : α} (hx : p x = true) :
    fields p (xs ++ [x]) = fields p xs ++ [[]] := by
  induction xs with
  | nil => simp [fields, hx]
  | cons y xs ih =>
    rw [List.cons_append, fields, fields, ih]
    split
    · rfl
    · cases hxs : fields p xs with
      | nil => exact absurd hxs (fields_ne_nil p xs)
      | cons f fs => rfl

theorem not_mem_of_mem_lines {cs l : List Char} (h : l ∈ lines cs) : '\n' ∉ l := fun hl =>
  absurd (not_of_mem_fields h '\n' hl) (by decide)

theorem getLast?_normalizeBreaks {cs : List Char} (h : cs.getLast? = some '\n') :
    (normalizeBreaks cs).getLast? = some '\n' := by
  fun_induction normalizeBreaks cs with
  | case1 => cases h
  | case2 cs ih =>
    cases cs with
    | nil => rfl
    | cons c cs =>
      rw [List.getLast?_cons_cons, List.getLast?_cons_cons] at h
      rw [List.getLast?_cons, ih h]
      rfl
  | case3 c cs hbreak ih =>
    cases cs with
    | nil =>
      cases h
      rfl
    | cons d cs =>
      rw [List.getLast?_cons_cons] at h
      rw [List.getLast?_cons, ih h]
      rfl

/-- A text that is empty or ends in a line feed has an empty line at its end. -/
theorem nil_mem_lines {cs : List Char} (h : cs = [] ∨ cs.getLast? = some '\n') :
    [] ∈ lines (normalizeBreaks cs) := by
  rcases h with rfl | h
  · exact List.mem_cons_self
  · obtain ⟨ds, hds⟩ := List.getLast?_eq_some_iff.mp (getLast?_normalizeBreaks h)
    rw [hds, lines, fields_concat ds (by rfl)]
    simp

theorem joinLines_cons_cons (l l' : List Char) (ls : List (List Char)) :
    joinLines (l :: l' :: ls) = l ++ '\n' :: joinLines (l' :: ls) := by
  simp [joinLines, List.intercalate_cons_cons]

theorem joinLines_cons (l : List Char) (ls : List (List Char)) :
    joinLines (l :: ls) = l ++ ls.flatMap ('\n' :: ·) := by
  induction ls generalizing l with
  | nil => simp [joinLines]
  | cons l' ls ih => rw [joinLines_cons_cons, ih, List.flatMap_cons, List.cons_append]

theorem lines_of_not_mem {l : List Char} (h : '\n' ∉ l) : lines l = [l] := by
  induction l with
  | nil => rfl
  | cons c l ih =>
    rw [List.mem_cons, not_or] at h
    have hc : ¬ (c == '\n') = true := fun heq => h.1 (beq_iff_eq.mp heq).symm
    rw [lines] at ih
    rw [lines, fields, if_neg hc, ih h.2]

theorem exists_lines_eq_cons (text : List Char) : ∃ first later, lines text = first :: later :=
  List.exists_cons_of_ne_nil (fields_ne_nil (· == '\n') text)

theorem lines_cons_of_ne {c : Char} {text first : List Char} {later : List (List Char)}
    (hc : c ≠ '\n') (h : lines text = first :: later) :
    lines (c :: text) = (c :: first) :: later := by
  rw [lines] at h
  rw [lines, fields, if_neg (by simpa using hc), h]

theorem lines_append_break {l : List Char} (h : '\n' ∉ l) (rest : List Char) :
    lines (l ++ '\n' :: rest) = l :: lines rest := by
  induction l with
  | nil => rfl
  | cons c l ih =>
    rw [List.mem_cons, not_or] at h
    have hc : ¬ (c == '\n') = true := fun heq => h.1 (beq_iff_eq.mp heq).symm
    rw [lines] at ih
    rw [List.cons_append, lines, fields, if_neg hc, ih h.2]

/-- Lines that are joined are the lines of the whole. -/
theorem lines_joinLines : ∀ {ls : List (List Char)}, ls ≠ [] → (∀ l ∈ ls, '\n' ∉ l) →
    lines (joinLines ls) = ls
  | [], h, _ => absurd rfl h
  | [l], _, h => by
    have hl : joinLines [l] = l := List.intercalate_singleton
    rw [hl, lines_of_not_mem (h l List.mem_cons_self)]
  | l :: l' :: ls, _, h => by
    rw [List.forall_mem_cons] at h
    rw [joinLines_cons_cons, lines_append_break h.1, lines_joinLines (List.cons_ne_nil l' ls) h.2]

/-- A text is its lines joined. -/
theorem joinLines_lines (cs : List Char) : joinLines (lines cs) = cs := by
  induction cs with
  | nil => rfl
  | cons c cs ih =>
    obtain ⟨l, ls, hls⟩ := List.exists_cons_of_ne_nil (fields_ne_nil (· == '\n') cs)
    rw [lines, hls] at ih
    rw [lines, fields, hls]
    split
    · rename_i hc
      rw [joinLines_cons_cons, ih, beq_iff_eq.mp hc, List.nil_append]
    · rw [← ih]
      cases ls with
      | nil => simp [joinLines]
      | cons l' ls => rw [joinLines_cons_cons, joinLines_cons_cons, List.cons_append]

/-- What takes a text apart at each line feed takes it line by line. -/
theorem joinLines_morphism {f : List Char → List β} {y : β} (hnil : f [] = [])
    (hbreak : ∀ l rest, '\n' ∉ l → f (l ++ '\n' :: rest) = f l ++ y :: f rest) :
    ∀ {ls : List (List Char)}, (∀ l ∈ ls, '\n' ∉ l) →
      f (joinLines ls) = [y].intercalate (ls.map f)
  | [], _ => by simpa [joinLines] using hnil
  | [l], _ => by simp [joinLines]
  | l :: l' :: ls, h => by
    rw [List.forall_mem_cons] at h
    have hrest := joinLines_morphism hnil hbreak h.2
    rw [joinLines_cons_cons, hbreak l _ h.1, hrest]
    simp [List.intercalate_cons_cons]

end MarkdownPreview.Text
