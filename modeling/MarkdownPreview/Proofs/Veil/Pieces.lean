import MarkdownPreview.Proofs.Variables.Raised
import MarkdownPreview.Proofs.Veil.Alike

/-!
# Cutting texts that differ in their comments

Variables and raised runs are cut out of a text wherever they stand, within a comment too. If no
mark of either is in what a comment hides, alike texts are cut at the same places into pieces that
are alike (`Sees.pieces`).
-/

set_option autoImplicit false

namespace MarkdownPreview.Comment

open Text

variable {hides : List Char → List Char → Prop} {xs ys body : List Char}
  {m : Recogniser Char (List Char)}

/-- A comment with its marks. -/
def enclosed (body : List Char) : List Char := '<' :: '!' :: '-' :: '-' :: (body ++ ['-', '-', '>'])

theorem enclosed_append (body xs : List Char) :
    enclosed body ++ xs = '<' :: '!' :: '-' :: '-' :: (body ++ '-' :: '-' :: '>' :: xs) := by
  simp [enclosed]

theorem Alike.inComment {old new : List Char} (hh : hides old new) (h : Alike hides xs ys) :
    Alike hides (enclosed old ++ xs) (enclosed new ++ ys) := by
  rw [enclosed_append, enclosed_append]
  exact h.comment hh

/-! ## Pieces -/

/-- A text that was found, or cut off, with the text after it. -/
abbrev AlikePair (hides : List Char → List Char → Prop) (a b : List Char × List Char) : Prop :=
  Alike hides a.1 b.1 ∧ Alike hides a.2 b.2

structure AlikePieces (hides : List Char → List Char → Prop) (p q : Variable.Cut) : Prop where
  first : Alike hides p.first q.first
  rest : List.Forall₂ (AlikePair hides) p.rest q.rest

/-- A recogniser that sees nothing within a comment, and the same at places that are the same. -/
structure Sees (hides : List Char → List Char → Prop) (m : Recogniser Char (List Char)) :
    Prop where
  steady : Steady m
  misses : ∀ {old new}, hides old new → ∀ body ∈ [old, new], ∀ s, s <:+ enclosed body → s ≠ [] →
    ∀ xs, m true (s ++ xs) = none
  same : ∀ {c xs ys}, Alike hides xs ys →
    Option.Rel (AlikePair hides)
      ((m true (c :: xs)).map fun hit => (hit.value, xs.drop hit.more))
      ((m true (c :: ys)).map fun hit => (hit.value, ys.drop hit.more))

theorem Sees.pieces (hm : Sees hides m) : ∀ {xs ys : List Char}, Alike hides xs ys →
    AlikePieces hides (pieces m xs) (pieces m ys)
  | _, _, .nil => ⟨.nil, .nil⟩
  | _, _, @Alike.comment _ old new xs ys hh h => by
    have hrest := hm.pieces h
    have hpieces {body : List Char} (hb : body ∈ [old, new]) (zs : List Char) :
        Text.pieces m (enclosed body ++ zs)
          = ⟨enclosed body ++ (Text.pieces m zs).first, (Text.pieces m zs).rest⟩ :=
      hm.steady.pieces_miss fun s hs hne => hm.misses hh body hb s hs hne zs
    rw [← enclosed_append, ← enclosed_append, hpieces (by simp), hpieces (by simp)]
    exact ⟨hrest.first.inComment hh, hrest.rest⟩
  | _, _, @Alike.cons _ c xs ys h => by
    rcases cases_of_rel (hm.same (c := c) h) with ⟨hx, hy⟩ | ⟨a, b, hx, hy, hpair⟩
    · rw [Option.map_eq_none_iff] at hx hy
      have hrest := hm.pieces h
      rw [hm.steady.pieces_cons hx, hm.steady.pieces_cons hy]
      exact ⟨hrest.first.cons c, hrest.rest⟩
    · obtain ⟨hit, hhit, rfl⟩ := Option.map_eq_some_iff.mp hx
      obtain ⟨hit', hhit', rfl⟩ := Option.map_eq_some_iff.mp hy
      -- What was found may end behind several comments, so it goes on with what is left.
      have hlt : (xs.drop hit.more).length < xs.length + 1 := by
        rw [List.length_drop]
        omega
      have hrest := hm.pieces hpair.2
      rw [hm.steady.pieces_hit hhit rfl, hm.steady.pieces_hit hhit' rfl]
      exact ⟨.nil, .cons ⟨hpair.1, hrest.first⟩ hrest.rest⟩
termination_by xs => xs.length
decreasing_by
  all_goals simp only [List.length_cons, List.length_append]
  all_goals omega

/-! ## Variables -/

/-- No body has the mark of a variable. -/
def Markless (hides : List Char → List Char → Prop) : Prop :=
  ∀ {old new}, hides old new → ¬Variable.mark <:+: old ∧ ¬Variable.mark <:+: new

theorem not_mark_infix (hbody : ¬Variable.mark <:+: body) : ¬Variable.mark <:+: enclosed body := by
  intro h
  have hdash : '-' ∉ Variable.mark := by decide
  rcases infix_append_cons hdash ['<', '!'] h with h | h
  · exact absurd h (by decide)
  rcases infix_append_cons hdash [] h with h | h
  · exact absurd h (by decide)
  rcases infix_append_cons hdash body h with h | h
  · exact hbody h
  · exact absurd h (by decide)

/-- A mark that is not in a comment does not start in it either. -/
theorem not_mark_starts {s : List Char} (hbody : ¬Variable.mark <:+: body)
    (hs : s <:+ enclosed body) (hne : s ≠ []) (xs : List Char) : ¬Variable.mark <+: s ++ xs := by
  intro hstarts
  by_cases hdash : '-' ∈ s
  · obtain ⟨before, after, rfl⟩ := List.append_of_mem hdash
    rw [List.append_assoc, List.cons_append] at hstarts
    have hfront := (prefix_append_cons_iff (by decide) before).mp hstarts
    exact not_mark_infix hbody
      (hfront.isInfix.trans ((List.prefix_append _ _).isInfix.trans hs.isInfix))
  · -- Only the last character of a comment has no dash after it.
    obtain ⟨front, hfront⟩ := hs
    rcases List.eq_nil_or_concat s with rfl | ⟨s, e, rfl⟩
    · exact hne rfl
    · have hlast : (front ++ s) ++ [e]
          = ('<' :: '!' :: '-' :: '-' :: (body ++ ['-', '-'])) ++ ['>'] := by
        simpa [enclosed] using hfront
      obtain ⟨hinit, he⟩ := List.append_inj' hlast rfl
      obtain rfl : e = '>' := by simpa using he
      rcases List.eq_nil_or_concat s with rfl | ⟨s, d, rfl⟩
      · simp [Variable.mark] at hstarts
      · have hlast : (front ++ s) ++ [d]
            = ('<' :: '!' :: '-' :: '-' :: (body ++ ['-'])) ++ ['-'] := by
          simpa using hinit
        obtain ⟨-, hd⟩ := List.append_inj' hlast rfl
        obtain rfl : d = '-' := by simpa using hd
        simp at hdash

theorem rel_map_cons (c : Char) {a b : Option (List Char × List Char)}
    (h : Option.Rel (AlikePair hides) a b) :
    Option.Rel (AlikePair hides) (a.map fun (before, after) => (c :: before, after))
      (b.map fun (before, after) => (c :: before, after)) := by
  cases h with
  | none => exact .none
  | some h => exact .some ⟨h.1.cons c, h.2⟩

namespace Alike

theorem cut?_mark (hm : Markless hides) (h : Alike hides xs ys) :
    Option.Rel (AlikePair hides) (cut? Variable.mark xs) (cut? Variable.mark ys) := by
  induction h with
  | nil => exact .none
  | @cons c xs ys h ih =>
    rw [cut?, cut?]
    rcases cases_of_rel ((h.cons c).isPrefixOf? (m := Variable.mark) (by decide)) with
      ⟨hx, hy⟩ | ⟨us, vs, hx, hy, hrest⟩
    · rw [hx, hy]
      exact rel_map_cons c ih
    · rw [hx, hy]
      exact .some ⟨.nil, hrest⟩
  | @comment old new xs ys hh h ih =>
    have hcut {body zs : List Char} (hbody : ¬Variable.mark <:+: body) :
        cut? Variable.mark (enclosed body ++ zs) = (cut? Variable.mark zs).map
          fun (before, after) => (enclosed body ++ before, after) :=
      cut?_append fun s hs hne => not_mark_starts hbody hs hne zs
    rw [← enclosed_append, ← enclosed_append, hcut (hm hh).1, hcut (hm hh).2]
    rcases cases_of_rel ih with ⟨hx, hy⟩ | ⟨a, b, hx, hy, hpair⟩
    · rw [hx, hy]
      exact .none
    · rw [hx, hy]
      exact .some ⟨hpair.1.inComment hh, hpair.2⟩

/-- A name may start with a comment, so its first character is looked at with what follows. -/
theorem cut?_mark_tail (hm : Markless hides) {c : Char} (h : Alike hides (c :: xs) (c :: ys)) :
    Option.Rel (AlikePair hides)
      ((cut? Variable.mark xs).map fun (before, after) => (c :: before, after))
      ((cut? Variable.mark ys).map fun (before, after) => (c :: before, after)) := by
  cases h with
  | cons _ h => exact rel_map_cons c (h.cut?_mark hm)
  | comment hh h =>
    have hmiss (rest : List Char) : ¬Variable.mark <+: '<' :: '!' :: rest := by
      simp [Variable.mark]
    rw [← cut?_miss (hmiss _), ← cut?_miss (hmiss _)]
    exact (h.comment hh).cut?_mark hm

end Alike

/-- A variable is a name between marks that lies on one line. -/
theorem markedName_map (d : Char) (rest : List Char) :
    (Variable.markedName true ('<' :: '^' :: '>' :: d :: rest)).map
        (fun hit => (hit.value, ('^' :: '>' :: d :: rest).drop hit.more))
      = ((cut? Variable.mark rest).map fun (before, after) => (d :: before, after)).filter
          fun pair => '\n' ∉ pair.1 := by
  have hmark : Variable.mark.isPrefixOf? ('<' :: '^' :: '>' :: d :: rest) = some (d :: rest) := rfl
  cases hcut : cut? Variable.mark rest with
  | none => simp only [Variable.markedName, hmark, hcut, Option.map_none, Option.filter_none]
  | some cut =>
    obtain ⟨more, after⟩ := cut
    have hdrop : ('^' :: '>' :: d :: rest).drop (more.length + 6) = after := by
      have hsplit : '^' :: '>' :: d :: rest
          = ('^' :: '>' :: d :: (more ++ Variable.mark)) ++ after := by
        rw [append_of_cut?_eq_some hcut]
        simp
      have hlen : ('^' :: '>' :: d :: (more ++ Variable.mark)).length = more.length + 6 := by
        simp [Variable.mark]
      rw [hsplit, ← hlen, List.drop_left]
    simp only [Variable.markedName, hmark, hcut]
    by_cases hline : '\n' ∈ d :: more
    · simp [hline, Option.filter_some]
    · simp [hline, hdrop, Option.filter_some]

theorem sees_markedName (hm : Markless hides) (hl : OneLine hides) :
    Sees hides Variable.markedName where
  steady := Variable.steady_markedName
  misses := by
    intro old new hh body hbody s hs hne xs
    have hclear : ¬Variable.mark <:+: body := by
      simp only [List.mem_cons, List.not_mem_nil, or_false] at hbody
      rcases hbody with rfl | rfl
      · exact (hm hh).1
      · exact (hm hh).2
    rw [Variable.markedName, isPrefixOf?_eq_none_iff.mpr (not_mark_starts hclear hs hne xs)]
  same := by
    intro c xs ys h
    rcases cases_of_rel ((h.cons c).isPrefixOf? (m := Variable.mark) (by decide)) with
      ⟨hx, hy⟩ | ⟨rest, rest', hx, hy, hrest⟩
    · rw [Variable.markedName, hx, Variable.markedName, hy]
      exact .none
    · have hx := List.isPrefixOf?_eq_some_iff_append_eq.mp hx
      have hy := List.isPrefixOf?_eq_some_iff_append_eq.mp hy
      obtain ⟨rfl, rfl⟩ := List.cons.inj hx
      obtain ⟨-, rfl⟩ := List.cons.inj hy
      cases rest with
      | nil =>
        rw [hrest.nil_iff.mp rfl]
        exact .none
      | cons d rest =>
        obtain ⟨rest', rfl⟩ := hrest.exists_cons
        show Option.Rel (AlikePair hides)
          ((Variable.markedName true ('<' :: '^' :: '>' :: d :: rest)).map
            fun hit => (hit.value, ('^' :: '>' :: d :: rest).drop hit.more))
          ((Variable.markedName true ('<' :: '^' :: '>' :: d :: rest')).map
            fun hit => (hit.value, ('^' :: '>' :: d :: rest').drop hit.more))
        rw [markedName_map, markedName_map]
        rcases cases_of_rel (hrest.cut?_mark_tail hm) with ⟨hx, hy⟩ | ⟨a, b, hx, hy, hpair⟩
        · rw [hx, hy]
          exact .none
        · rw [hx, hy, Option.filter_some, Option.filter_some]
          simp only [hpair.1.mem_iff hl]
          split
          · exact .some hpair
          · exact .none

/-! ## Raised runs -/

/-- No body has a caret. -/
def Caretless (hides : List Char → List Char → Prop) : Prop :=
  ∀ {old new}, hides old new → '^' ∉ old ∧ '^' ∉ new

/-- Both bodies have blanks, or neither has. -/
def SameBlanks (hides : List Char → List Char → Prop) : Prop :=
  ∀ {old new}, hides old new → old.any isBlank = new.any isBlank

theorem ne_caret_of_mem_enclosed {c : Char} (hbody : '^' ∉ body) (hc : c ∈ enclosed body) :
    (c != '^') = true := by
  rw [bne_iff_ne]
  rintro rfl
  simp [enclosed, hbody] at hc

/-- Texts without carets in their comments have their first caret at the same place. -/
theorem Alike.takeWhile_caret (hc : Caretless hides) (h : Alike hides xs ys) :
    Alike hides (xs.takeWhile (· != '^')) (ys.takeWhile (· != '^')) := by
  induction h with
  | nil => exact .nil
  | cons c h ih =>
    rw [List.takeWhile_cons, List.takeWhile_cons]
    split
    · exact ih.cons c
    · exact .nil
  | @comment old new xs ys hh h ih =>
    rw [← enclosed_append, ← enclosed_append,
      List.takeWhile_append_of_pos fun c => ne_caret_of_mem_enclosed (hc hh).1,
      List.takeWhile_append_of_pos fun c => ne_caret_of_mem_enclosed (hc hh).2]
    exact ih.inComment hh

theorem Alike.dropWhile_caret (hc : Caretless hides) (h : Alike hides xs ys) :
    xs.dropWhile (· != '^') = [] ∧ ys.dropWhile (· != '^') = []
      ∨ ∃ us vs, xs.dropWhile (· != '^') = '^' :: us ∧ ys.dropWhile (· != '^') = '^' :: vs
        ∧ Alike hides us vs := by
  induction h with
  | nil => exact .inl ⟨rfl, rfl⟩
  | @cons c xs ys h ih =>
    by_cases hcaret : c = '^'
    · subst hcaret
      exact .inr ⟨xs, ys, rfl, rfl, h⟩
    · have hpass (zs : List Char) :
          (c :: zs).dropWhile (· != '^') = zs.dropWhile (· != '^') :=
        List.dropWhile_cons_of_pos (by simpa using hcaret)
      rw [hpass, hpass]
      exact ih
  | @comment old new xs ys hh h ih =>
    rw [← enclosed_append, ← enclosed_append,
      List.dropWhile_append_of_pos fun c => ne_caret_of_mem_enclosed (hc hh).1,
      List.dropWhile_append_of_pos fun c => ne_caret_of_mem_enclosed (hc hh).2]
    exact ih

theorem raised_map (cs : List Char) :
    (Markdown.raised true ('^' :: cs)).map (fun hit => (hit.value, cs.drop hit.more))
      = match cs.dropWhile (· != '^') with
        | [] => none
        | _ :: after =>
          if (cs.takeWhile (· != '^')).isEmpty || (cs.takeWhile (· != '^')).any isBlank then none
          else some (cs.takeWhile (· != '^'), after) := by
  have hdrop : cs.drop ((cs.takeWhile (· != '^')).length + 1)
      = (cs.dropWhile (· != '^')).tail := by
    have hfront : cs.drop (cs.takeWhile (· != '^')).length = cs.dropWhile (· != '^') := by
      conv_lhs =>
        arg 2
        rw [← List.takeWhile_append_dropWhile (p := (· != '^')) (l := cs)]
      rw [List.drop_left]
    rw [← List.drop_drop, hfront, List.drop_one]
  unfold Markdown.raised
  simp only
  revert hdrop
  cases cs.dropWhile (· != '^') with
  | nil => exact fun _ => rfl
  | cons c after =>
    intro hdrop
    simp only
    split
    · rfl
    · rw [Option.map_some, hdrop]
      rfl

theorem sees_raised (hc : Caretless hides) (hb : SameBlanks hides) :
    Sees hides Markdown.raised where
  steady := Variable.steady_raised
  misses := by
    intro old new hh body hbody s hs hne xs
    have hclear : '^' ∉ body := by
      simp only [List.mem_cons, List.not_mem_nil, or_false] at hbody
      rcases hbody with rfl | rfl
      · exact (hc hh).1
      · exact (hc hh).2
    have hfront : '^' ∉ enclosed body := fun hmem =>
      absurd (ne_caret_of_mem_enclosed hclear hmem) (by decide)
    exact Variable.raised_misses hfront _ s hs hne
  same := by
    intro c xs ys h
    by_cases hcaret : c = '^'
    · subst hcaret
      have htake := h.takeWhile_caret hc
      rw [raised_map, raised_map, htake.isEmpty_eq, htake.any_eq hb]
      rcases h.dropWhile_caret hc with ⟨hx, hy⟩ | ⟨us, vs, hx, hy, hrest⟩
      · rw [hx, hy]
        exact .none
      · rw [hx, hy]
        simp only
        split
        · exact .none
        · exact .some ⟨htake, hrest⟩
    · rw [Variable.raised_miss hcaret, Variable.raised_miss hcaret]
      exact .none

end MarkdownPreview.Comment
