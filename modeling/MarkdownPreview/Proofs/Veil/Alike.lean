import Mathlib.Data.List.Forall2
import Mathlib.Data.Option.Basic
import MarkdownPreview.Comment.Text
import MarkdownPreview.Proofs.Text.Trim
import MarkdownPreview.Text.Bytes
import MarkdownPreview.Text.Lines

/-!
# Texts that differ only in their comments

Two texts are alike if they are the same but for what is between the marks of some comments
(`Alike`); which bodies a comment may have in the one and in the other is left open. The marks
themselves are the same in both. So whatever only looks at a few characters, or stops at an angle
bracket, sees the same in both texts, and what it leaves of them is alike again.
-/

set_option autoImplicit false

namespace MarkdownPreview.Comment

open Text

theorem cases_of_rel {α β : Type} {r : α → β → Prop} {a : Option α} {b : Option β}
    (h : Option.Rel r a b) :
    a = none ∧ b = none ∨ ∃ x y, a = some x ∧ b = some y ∧ r x y := by
  cases h with
  | none => exact .inl ⟨rfl, rfl⟩
  | some h => exact .inr ⟨_, _, rfl, rfl, h⟩

/-- The same text but for comments that hold `old` in the one and `new` in the other, where
`hides old new`. -/
inductive Alike (hides : List Char → List Char → Prop) : List Char → List Char → Prop
  | nil : Alike hides [] []
  | cons (c : Char) {xs ys : List Char} : Alike hides xs ys → Alike hides (c :: xs) (c :: ys)
  | comment {old new xs ys : List Char} : hides old new → Alike hides xs ys →
    Alike hides ('<' :: '!' :: '-' :: '-' :: (old ++ '-' :: '-' :: '>' :: xs))
      ('<' :: '!' :: '-' :: '-' :: (new ++ '-' :: '-' :: '>' :: ys))

variable {hides hides' : List Char → List Char → Prop} {xs ys xs' ys' cs : List Char}

namespace Alike

@[refl] theorem refl : ∀ xs : List Char, Alike hides xs xs
  | [] => .nil
  | c :: xs => .cons c (refl xs)

theorem append (h : Alike hides xs ys) (h' : Alike hides xs' ys') :
    Alike hides (xs ++ xs') (ys ++ ys') := by
  induction h with
  | nil => exact h'
  | cons c _ ih => exact ih.cons c
  | comment hh _ ih =>
    simp only [List.cons_append, List.append_assoc]
    exact ih.comment hh

theorem mono (h : Alike hides xs ys) (hle : ∀ {old new}, hides old new → hides' old new) :
    Alike hides' xs ys := by
  induction h with
  | nil => exact .nil
  | cons c _ ih => exact ih.cons c
  | comment hh _ ih => exact ih.comment (hle hh)

theorem symm (h : Alike hides xs ys) : Alike (fun new old => hides old new) ys xs := by
  induction h with
  | nil => exact .nil
  | cons c _ ih => exact ih.cons c
  | comment hh _ ih => exact ih.comment hh

/-- Texts in which nothing can be hidden are the same. -/
theorem eq_of_false (h : Alike (fun _ _ => False) xs ys) : xs = ys := by
  induction h with
  | nil => rfl
  | cons c _ ih => rw [ih]
  | comment hh => exact hh.elim

theorem nil_iff (h : Alike hides xs ys) : xs = [] ↔ ys = [] := by
  cases h <;> simp

theorem isEmpty_eq (h : Alike hides xs ys) : xs.isEmpty = ys.isEmpty := by
  cases h <;> rfl

/-- The start of a comment is four characters long. -/
theorem take_eq (h : Alike hides xs ys) {n : Nat} (hn : n ≤ 4) : xs.take n = ys.take n := by
  have hfour : xs.take 4 = ys.take 4 := by
    induction h with
    | nil => rfl
    | cons c h ih =>
      rw [List.take_succ_cons, List.take_succ_cons]
      have hthree := congrArg (List.take 3) ih
      simp only [List.take_take] at hthree
      exact congrArg (c :: ·) hthree
    | comment => simp
  have hmin := congrArg (List.take n) hfour
  simpa [List.take_take, Nat.min_eq_left hn] using hmin

theorem head?_eq (h : Alike hides xs ys) : xs.head? = ys.head? := by
  cases h <;> rfl

theorem exists_cons {c : Char} (h : Alike hides (c :: xs) ys) : ∃ ys', ys = c :: ys' := by
  cases h with
  | cons => exact ⟨_, rfl⟩
  | comment => exact ⟨_, rfl⟩

/-- A comment does not start with a closing bracket, so both texts do or neither. -/
theorem bracket_cases (h : Alike hides xs ys) :
    (∃ us vs, xs = '>' :: us ∧ ys = '>' :: vs ∧ Alike hides us vs)
      ∨ (∀ us, xs ≠ '>' :: us) ∧ ∀ vs, ys ≠ '>' :: vs := by
  cases h with
  | nil => exact .inr ⟨by simp, by simp⟩
  | @cons c us vs h =>
    by_cases hc : c = '>'
    · subst hc
      exact .inl ⟨us, vs, rfl, rfl, h⟩
    · exact .inr ⟨by simp [hc], by simp [hc]⟩
  | comment => exact .inr ⟨by simp, by simp⟩

/-! ## Searching and trimming -/

theorem dropWhile {p : Char → Bool} (hp : p '<' = false) (h : Alike hides xs ys) :
    Alike hides (xs.dropWhile p) (ys.dropWhile p) := by
  induction h with
  | nil => exact .nil
  | cons c h ih =>
    rw [List.dropWhile_cons, List.dropWhile_cons]
    split
    · exact ih
    · exact h.cons c
  | comment hh h _ =>
    rw [List.dropWhile_cons_of_neg (by simp [hp]), List.dropWhile_cons_of_neg (by simp [hp])]
    exact h.comment hh

theorem takeWhile_eq {p : Char → Bool} (hp : p '<' = false) (h : Alike hides xs ys) :
    xs.takeWhile p = ys.takeWhile p := by
  induction h with
  | nil => rfl
  | cons c _ ih => rw [List.takeWhile_cons, List.takeWhile_cons, ih]
  | comment =>
    rw [List.takeWhile_cons_of_neg (by simp [hp]), List.takeWhile_cons_of_neg (by simp [hp])]

theorem dropEndWhile {p : Char → Bool} (hp : p '>' = false) (h : Alike hides xs ys) :
    Alike hides (dropEndWhile p xs) (dropEndWhile p ys) := by
  induction h with
  | nil => exact .nil
  | cons c _ ih =>
    rw [Text.dropEndWhile, Text.dropEndWhile]
    have hnil := ih.nil_iff
    split
    · rename_i hx
      rw [hnil.mp hx]
    · rename_i hx
      split
      · rename_i hy
        exact absurd (hnil.mpr hy) (by simp [hx])
      · rename_i hy
        rw [hx, hy] at ih
        exact ih.cons c
  | @comment old new xs ys hh _ ih =>
    have hout (body rest : List Char) :
        Text.dropEndWhile p ('<' :: '!' :: '-' :: '-' :: (body ++ '-' :: '-' :: '>' :: rest))
          = '<' :: '!' :: '-' :: '-' ::
            (body ++ '-' :: '-' :: '>' :: Text.dropEndWhile p rest) := by
      have hmove := dropEndWhile_append_of_neg hp ('<' :: '!' :: '-' :: '-' :: (body ++ ['-', '-']))
        rest
      simpa using hmove
    rw [hout, hout]
    exact ih.comment hh

theorem any_eq {p : Char → Bool} (hp : ∀ {old new}, hides old new → old.any p = new.any p)
    (h : Alike hides xs ys) : xs.any p = ys.any p := by
  induction h with
  | nil => rfl
  | cons c _ ih => simp [ih]
  | comment hh _ ih => simp [ih, hp hh]

theorem mem_iff {c : Char} (hc : ∀ {old new}, hides old new → c ∉ old ∧ c ∉ new)
    (h : Alike hides xs ys) : c ∈ xs ↔ c ∈ ys := by
  induction h with
  | nil => rfl
  | cons d _ ih => simp [ih]
  | comment hh _ ih => simp [ih, hc hh]

/-! ## Fixed starts and ends -/

/-- Whether a mark is fixed in all texts that are alike: no comment can start in it. -/
def isFixed : List Char → Bool
  | [] => true
  | ['<'] => false
  | '<' :: '!' :: _ => false
  | _ :: cs => isFixed cs

theorem isFixed_tail {c : Char} {cs : List Char} (h : isFixed (c :: cs) = true) :
    isFixed cs = true := by
  unfold isFixed at h
  split at h
  · rename_i hnil
    cases hnil
  · cases h
  · cases h
  · rename_i heq
    cases heq
    exact h

theorem isPrefixOf? {m : List Char} (hm : isFixed m = true) (h : Alike hides xs ys) :
    Option.Rel (Alike hides) (m.isPrefixOf? xs) (m.isPrefixOf? ys) := by
  induction m generalizing xs ys with
  | nil => exact .some h
  | cons c m ih =>
    cases h with
    | nil => exact .none
    | cons d h =>
      simp only [List.isPrefixOf?]
      split
      · exact ih (isFixed_tail hm) h
      · exact .none
    | comment hh h =>
      by_cases hc : c = '<'
      · subst hc
        match m with
        | [] => cases hm
        | d :: m =>
          have hd : d ≠ '!' := by
            rintro rfl
            cases hm
          simp only [List.isPrefixOf?]
          simp [hd]
      · simp only [List.isPrefixOf?]
        simp [hc]

/-- An end that no comment can have is the end of both texts. -/
theorem of_concat {d : Char} {us zs : List Char} (h : Alike hides us zs) (heq : us = xs ++ [d])
    (hd : d ≠ '>' ∨ ¬['-'] <:+ xs) : ∃ ys, zs = ys ++ [d] ∧ Alike hides xs ys := by
  induction h generalizing xs with
  | nil => simp at heq
  | @cons c us zs h ih =>
    cases xs with
    | nil =>
      obtain ⟨rfl, rfl⟩ := List.cons.inj heq
      cases h
      exact ⟨[], rfl, .nil⟩
    | cons x xs =>
      obtain ⟨rfl, hus⟩ := List.cons.inj heq
      obtain ⟨ys, rfl, hys⟩ :=
        ih hus (hd.imp_right fun hx hxs => hx (hxs.trans (List.suffix_cons c xs)))
      exact ⟨c :: ys, rfl, hys.cons c⟩
  | @comment old new us zs hh h ih =>
    rcases List.eq_nil_or_concat us with rfl | ⟨us, e, rfl⟩
    · -- The text would end as the comment does.
      have hlast : ('<' :: '!' :: '-' :: '-' :: (old ++ ['-', '-'])) ++ ['>'] = xs ++ [d] := by
        simpa using heq
      obtain ⟨rfl, hd'⟩ := List.append_inj' hlast rfl
      obtain rfl : d = '>' := by simpa using hd'.symm
      rcases hd with hd | hd
      · exact absurd rfl hd
      · exact absurd ⟨'<' :: '!' :: '-' :: '-' :: (old ++ ['-']), by simp⟩ hd
    · have hlast : ('<' :: '!' :: '-' :: '-' :: (old ++ '-' :: '-' :: '>' :: us)) ++ [e]
          = xs ++ [d] := by
        simpa using heq
      obtain ⟨rfl, he⟩ := List.append_inj' hlast rfl
      obtain rfl : e = d := by simpa using he
      have htail : us <:+ '<' :: '!' :: '-' :: '-' :: (old ++ '-' :: '-' :: '>' :: us) :=
        ⟨'<' :: '!' :: '-' :: '-' :: (old ++ ['-', '-', '>']), by simp⟩
      obtain ⟨ys, rfl, hys⟩ := ih (by simp) (hd.imp_right fun hx hus => hx (hus.trans htail))
      exact ⟨'<' :: '!' :: '-' :: '-' :: (new ++ '-' :: '-' :: '>' :: ys), by simp,
        hys.comment hh⟩

end Alike

/-! ## Lines -/

/-- No comment runs on to another line. -/
def OneLine (hides : List Char → List Char → Prop) : Prop :=
  ∀ {old new}, hides old new → '\n' ∉ old ∧ '\n' ∉ new

theorem fields_append_of_neg {p : Char → Bool} {front f : List Char} {fs : List (List Char)}
    (hfront : ∀ c ∈ front, p c = false) (h : fields p xs = f :: fs) :
    fields p (front ++ xs) = (front ++ f) :: fs := by
  induction front with
  | nil => exact h
  | cons c front ih =>
    rw [List.forall_mem_cons] at hfront
    rw [List.cons_append, fields, ih hfront.2]
    simp [hfront.1]

theorem exists_fields_eq_cons (p : Char → Bool) (xs : List Char) :
    ∃ f fs, fields p xs = f :: fs := List.exists_cons_of_ne_nil (fields_ne_nil p xs)

namespace Alike

theorem lines (hl : OneLine hides) (h : Alike hides xs ys) :
    List.Forall₂ (Alike hides) (lines xs) (lines ys) := by
  unfold Text.lines
  induction h with
  | nil => exact .cons .nil .nil
  | @cons c xs ys _ ih =>
    obtain ⟨f, fs, hx⟩ := exists_fields_eq_cons (· == '\n') xs
    obtain ⟨g, gs, hy⟩ := exists_fields_eq_cons (· == '\n') ys
    rw [hx, hy] at ih
    cases ih with
    | cons hf hfs =>
      rw [fields, fields, hx, hy]
      split
      · exact .cons .nil (.cons hf hfs)
      · exact .cons (hf.cons c) hfs
  | @comment old new xs ys hh _ ih =>
    obtain ⟨f, fs, hx⟩ := exists_fields_eq_cons (· == '\n') xs
    obtain ⟨g, gs, hy⟩ := exists_fields_eq_cons (· == '\n') ys
    have hfields {body rest f : List Char} {fs : List (List Char)} (hb : '\n' ∉ body)
        (h : fields (· == '\n') rest = f :: fs) :
        fields (· == '\n') ('<' :: '!' :: '-' :: '-' :: (body ++ '-' :: '-' :: '>' :: rest))
          = ('<' :: '!' :: '-' :: '-' :: (body ++ '-' :: '-' :: '>' :: f)) :: fs := by
      have hfront : ∀ c ∈ '<' :: '!' :: '-' :: '-' :: (body ++ ['-', '-', '>']),
          (c == '\n') = false := by
        intro c hc
        rw [beq_eq_false_iff_ne]
        rintro rfl
        simp [hb] at hc
      simpa using fields_append_of_neg hfront h
    rw [hx, hy] at ih
    rw [hfields (hl hh).1 hx, hfields (hl hh).2 hy]
    cases ih with
    | cons hf hfs => exact .cons (hf.comment hh) hfs

theorem joinLines {us vs : List (List Char)} (h : List.Forall₂ (Alike hides) us vs) :
    Alike hides (joinLines us) (joinLines vs) := by
  unfold Text.joinLines
  induction h with
  | nil => exact .nil
  | @cons u v us vs huv h ih =>
    cases h with
    | nil => simpa using huv
    | cons =>
      rw [List.intercalate_cons_cons, List.intercalate_cons_cons]
      exact (huv.append (.refl _)).append ih

end Alike

end MarkdownPreview.Comment
