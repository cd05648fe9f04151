import MarkdownPreview.Html.Escape
import MarkdownPreview.Proofs.Text.Scan
import MarkdownPreview.Proofs.Veil.Alike
import MarkdownPreview.Comment.Within

/-!
# Reading texts that differ in their comments

A comment is hidden well if it ends where it seems to: no `-->` before its last three characters,
not even with the dashes of its start (`EndsOnce`). Then texts that are alike have their comments at
the same places, however they came by them, and are the same without them
(`Alike.erase_commentOf`); what follows the first end of a comment is alike again
(`Alike.cut?_endMark`).
-/

set_option autoImplicit false

namespace MarkdownPreview.Comment

open Text

variable {hides hides' : List Char → List Char → Prop} {xs ys xs' ys' : List Char}

/-- No end of a comment in a body, nor in the dashes before it and the body. -/
def EndsOnce (body : List Char) : Prop := ¬endMark <:+: '-' :: '-' :: body

instance (body : List Char) : Decidable (EndsOnce body) := inferInstanceAs (Decidable (¬_))

/-- No comment ends before it seems to. -/
def EndOnce (hides : List Char → List Char → Prop) : Prop :=
  ∀ {old new}, hides old new → EndsOnce old ∧ EndsOnce new

/-! ## The end of a comment -/

/-- No end of a comment starts before the one that is there. -/
theorem not_endMark_starts {s : List Char} (hs : s ≠ []) (h : ¬endMark <:+: s) (cs : List Char) :
    ¬endMark <+: s ++ '-' :: '-' :: cs := by
  intro hprefix
  match s, hs with
  | [a], _ | [a, b], _ =>
    obtain ⟨rest, hrest⟩ := hprefix
    simp [endMark] at hrest
  | a :: b :: c :: s, _ =>
    refine h (List.IsPrefix.isInfix ?_)
    exact List.prefix_of_prefix_length_le hprefix (List.prefix_append _ _) (by simp [endMark])

theorem cut?_endMark_body {body : List Char} (h : EndsOnce body) (cs : List Char) :
    cut? endMark (body ++ '-' :: '-' :: '>' :: cs) = some (body, cs) := by
  have hmiss : ∀ s, s <:+ body → s ≠ [] → ¬endMark <+: s ++ (endMark ++ cs) := by
    intro s hs hne
    apply not_endMark_starts hne
    intro hin
    exact h (hin.trans (hs.isInfix.trans ⟨['-', '-'], [], by simp⟩))
  exact cut?_first (by decide) hmiss

/-- The first end of a comment after the start of one that ends once is its own. -/
theorem cut?_endMark_comment {body : List Char} (h : EndsOnce body) (cs : List Char) :
    cut? endMark ('<' :: '!' :: '-' :: '-' :: (body ++ '-' :: '-' :: '>' :: cs))
      = some ('<' :: '!' :: '-' :: '-' :: body, cs) := by
  have hmiss : ∀ s, s <:+ '<' :: '!' :: '-' :: '-' :: body → s ≠ [] →
      ¬endMark <+: s ++ (endMark ++ cs) := by
    intro s hs hne
    have hout : ¬endMark <:+: '<' :: '!' :: '-' :: '-' :: body := by
      intro hin
      rcases List.infix_cons_iff.mp hin with hin | hin
      · cases List.cons_prefix_cons.mp hin |>.1
      · rcases List.infix_cons_iff.mp hin with hin | hin
        · cases List.cons_prefix_cons.mp hin |>.1
        · exact h hin
    apply not_endMark_starts hne
    exact fun hin => hout (hin.trans hs.isInfix)
  exact cut?_first (by decide) hmiss

namespace Alike

/-- The first end of a comment is at the same place: what is before it has the same characters of a
kind that all bodies have in the same way, and what is after it is alike. -/
theorem cut?_endMark {p : Char → Bool} (hp : ∀ {old new}, hides old new → old.all p = new.all p)
    (hends : EndOnce hides) (h : Alike hides xs ys) :
    Option.Rel (fun a b => a.1.all p = b.1.all p ∧ Alike hides a.2 b.2) (cut? endMark xs)
      (cut? endMark ys) := by
  induction h with
  | nil => exact .none
  | @cons c xs ys h ih =>
    rw [cut?, cut?]
    rcases cases_of_rel ((h.cons c).isPrefixOf? (m := endMark) (by decide)) with
      ⟨hx, hy⟩ | ⟨us, vs, hx, hy, hrest⟩
    · rw [hx, hy]
      rcases cases_of_rel ih with ⟨hx, hy⟩ | ⟨a, b, hx, hy, hab⟩
      · rw [hx, hy]
        exact .none
      · rw [hx, hy]
        exact .some ⟨by simp [hab.1], hab.2⟩
    · rw [hx, hy]
      exact .some ⟨rfl, hrest⟩
  | comment hh h _ =>
    rw [cut?_endMark_comment (hends hh).1, cut?_endMark_comment (hends hh).2]
    exact .some ⟨by simp [hp hh], h⟩

theorem afterEnd_rel (hends : EndOnce hides) (h : Alike hides xs ys) :
    Option.Rel (fun a b => Alike hides a.2 b.2) (cut? endMark xs) (cut? endMark ys) := by
  have hall : ∀ {old new : List Char}, hides old new →
      (old.all fun _ => true) = new.all fun _ => true := by
    intro old new _
    rw [List.all_eq_true.mpr (by simp), List.all_eq_true.mpr (by simp)]
  rcases cases_of_rel (h.cut?_endMark hall hends) with ⟨hx, hy⟩ | ⟨a, b, hx, hy, hab⟩
  · rw [hx, hy]
    exact .none
  · rw [hx, hy]
    exact .some hab.2

theorem hasEnd_eq (hends : EndOnce hides) (h : Alike hides xs ys) :
    (cut? endMark xs).isSome = (cut? endMark ys).isSome := by
  rcases cases_of_rel (h.afterEnd_rel hends) with ⟨hx, hy⟩ | ⟨a, b, hx, hy, -⟩
  · rw [hx, hy]
  · rw [hx, hy]
    rfl

/-- The first start of a comment is at the same place. -/
theorem hasStart_eq (h : Alike hides xs ys) :
    (cut? startMark xs).isSome = (cut? startMark ys).isSome := by
  induction h with
  | nil => rfl
  | @cons c xs ys h ih =>
    have hstart : startMark <+: c :: xs ↔ startMark <+: c :: ys := by
      rw [List.prefix_iff_eq_take, List.prefix_iff_eq_take]
      simp only [startMark, List.length_cons, List.length_nil]
      rw [(h.cons c).take_eq le_rfl]
    by_cases hx : startMark <+: c :: xs
    · obtain ⟨rest, hrest⟩ := hx
      obtain ⟨rest', hrest'⟩ := hstart.mp ⟨rest, hrest⟩
      rw [← hrest, ← hrest', cut?_hit (by decide), cut?_hit (by decide)]
      rfl
    · rw [cut?_miss hx, cut?_miss fun hy => hx (hstart.mpr hy), Option.isSome_map,
        Option.isSome_map, ih]
  | @comment old new xs ys hh h _ =>
    have hstart (rest : List Char) :
        cut? startMark ('<' :: '!' :: '-' :: '-' :: rest) = some ([], rest) :=
      cut?_hit (by decide) rest
    rw [hstart, hstart]
    rfl

end Alike

/-! ## Taking comments out -/

variable {inside : Char → Bool}

theorem steady_commentOf (inside : Char → Bool) : Steady (commentOf inside) := fun _ _ => rfl

/-- A comment is recognised by its start and the first end after it. -/
theorem commentOf_hit {rest body : List Char} (hcut : cut? endMark rest = some (body, xs))
    (hin : body.all inside = true) :
    commentOf inside true ('<' :: '!' :: '-' :: '-' :: rest) = some ⟨(), body.length + 6⟩ := by
  have hmark : startMark.isPrefixOf? ('<' :: '!' :: '-' :: '-' :: rest) = some rest := rfl
  simp only [commentOf, hmark, hcut, hin, if_true]

theorem erase_commentOf_hit {rest body : List Char} (hcut : cut? endMark rest = some (body, xs))
    (hin : body.all inside = true) :
    erase (commentOf inside) ('<' :: '!' :: '-' :: '-' :: rest) = erase (commentOf inside) xs := by
  refine (steady_commentOf inside).erase_hit (commentOf_hit hcut hin) ?_
  rw [append_of_cut?_eq_some hcut]
  have hdrop : ('!' :: '-' :: '-' :: (body ++ endMark)).length = body.length + 6 := by
    simp [endMark]
  have hfront : '!' :: '-' :: '-' :: (body ++ (endMark ++ xs))
      = '!' :: '-' :: '-' :: (body ++ endMark) ++ xs := by
    simp
  rw [hfront, ← hdrop, List.drop_left]

/-- At a place that is the same in both texts, a comment starts in both or in neither. -/
theorem Alike.commentOf_cons (hin : ∀ {old new}, hides old new → old.all inside = new.all inside)
    (hends : EndOnce hides) (h : Alike hides xs ys) (c : Char) :
    (∃ rest rest' body body' after after', c :: xs = '<' :: '!' :: '-' :: '-' :: rest
        ∧ c :: ys = '<' :: '!' :: '-' :: '-' :: rest' ∧ cut? endMark rest = some (body, after)
        ∧ cut? endMark rest' = some (body', after') ∧ body.all inside = true
        ∧ body'.all inside = true ∧ Alike hides after after')
      ∨ commentOf inside true (c :: xs) = none ∧ commentOf inside true (c :: ys) = none := by
  have hstart : Option.Rel (Alike hides) (startMark.isPrefixOf? (c :: xs))
      (startMark.isPrefixOf? (c :: ys)) := by
    simp only [startMark, List.isPrefixOf?]
    split
    · exact h.isPrefixOf? (m := ['!', '-', '-']) (by decide)
    · exact .none
  unfold commentOf
  rcases cases_of_rel hstart with ⟨hx, hy⟩ | ⟨rest, rest', hx, hy, hrest⟩
  · rw [hx, hy]
    exact .inr ⟨rfl, rfl⟩
  · have hxs := List.isPrefixOf?_eq_some_iff_append_eq.mp hx
    have hys := List.isPrefixOf?_eq_some_iff_append_eq.mp hy
    rw [hx, hy]
    rcases cases_of_rel (hrest.cut?_endMark hin hends) with
      ⟨hcut, hcut'⟩ | ⟨cut, cut', hcut, hcut', hsame⟩
    · simp [hcut, hcut']
    · by_cases hall : cut.1.all inside = true
      · exact .inl ⟨rest, rest', cut.1, cut'.1, cut.2, cut'.2, hxs.symm, hys.symm, hcut, hcut',
          hall, hsame.1 ▸ hall, hsame.2⟩
      · simp only [hcut, hcut']
        rw [if_neg hall, if_neg (hsame.1 ▸ hall)]
        exact .inr ⟨rfl, rfl⟩

/-- **Without their comments, texts that are alike are the same.** -/
theorem Alike.erase_commentOf (hin : ∀ {old new}, hides old new →
      old.all inside = true ∧ new.all inside = true) (hends : EndOnce hides) :
    ∀ {xs ys : List Char}, Alike hides xs ys →
      erase (commentOf inside) xs = erase (commentOf inside) ys
  | _, _, .nil => rfl
  | _, _, @Alike.comment _ old new xs ys hh h => by
    rw [erase_commentOf_hit (cut?_endMark_body (hends hh).1 xs) (hin hh).1,
      erase_commentOf_hit (cut?_endMark_body (hends hh).2 ys) (hin hh).2,
      h.erase_commentOf hin hends]
  | _, _, @Alike.cons _ c xs ys h => by
    have hsame : ∀ {old new}, hides old new → old.all inside = new.all inside := by
      intro old new hh
      rw [(hin hh).1, (hin hh).2]
    rcases h.commentOf_cons hsame hends c with
      ⟨rest, rest', body, body', after, after', hx, hy, hcut, hcut', hall, hall', hafter⟩ | ⟨hx, hy⟩
    · have hlt : after.length < xs.length + 1 := by
        have hlen := congrArg List.length hx
        rw [append_of_cut?_eq_some hcut] at hlen
        simp only [List.length_append, List.length_cons] at hlen
        omega
      rw [hx, hy, erase_commentOf_hit hcut hall, erase_commentOf_hit hcut' hall',
        hafter.erase_commentOf hin hends]
    · rw [(steady_commentOf inside).erase_miss hx, (steady_commentOf inside).erase_miss hy,
        h.erase_commentOf hin hends]
termination_by xs => xs.length
decreasing_by
  all_goals simp only [List.length_cons, List.length_append]
  all_goals omega

/-! ## Reading brackets -/

/-- The characters of a text with its brackets read. -/
def brackets (cs : List Char) : List Char :=
  replace (exactly Html.Entity.gt.chars ['>']) (replace (exactly Html.Entity.lt.chars ['<']) cs)

theorem toList_readBrackets (text : String) :
    (Html.readBrackets text).toList = brackets text.toList := by
  rw [Html.readBrackets, String.toList_ofList, brackets]

/-- A stretch that is fixed and has no marks of a comment is replaced in a comment and around it. -/
theorem Alike.replace_exactly {mark value : List Char} (hmark : mark ≠ [])
    (hfixed : isFixed mark = true) (hclear : ∀ c ∈ ['<', '!', '-', '>'], c ∉ mark)
    (hread : ∀ {old new}, hides old new →
      hides' (replace (exactly mark value) old) (replace (exactly mark value) new)) :
    ∀ {xs ys : List Char}, Alike hides xs ys →
      Alike hides' (replace (exactly mark value) xs) (replace (exactly mark value) ys)
  | _, _, .nil => .nil
  | _, _, @Alike.comment _ old new xs ys hh h => by
    have hpart (body rest : List Char) : replace (exactly mark value)
        ('<' :: '!' :: '-' :: '-' :: (body ++ '-' :: '-' :: '>' :: rest))
        = '<' :: '!' :: '-' :: '-' :: (replace (exactly mark value) body
          ++ '-' :: '-' :: '>' :: replace (exactly mark value) rest) := by
      have hbar {c : Char} (hc : c ∈ ['<', '!', '-', '>']) (us vs : List Char) :
          replace (exactly mark value) (us ++ c :: vs)
            = replace (exactly mark value) us ++ c :: replace (exactly mark value) vs :=
        replace_exactly_barrier hmark (hclear c hc) vs us
      have hfront {c : Char} (hc : c ∈ ['<', '!', '-', '>']) (vs : List Char) :
          replace (exactly mark value) (c :: vs) = c :: replace (exactly mark value) vs :=
        hbar hc [] vs
      rw [hfront (by simp), hfront (by simp), hfront (by simp), hfront (by simp), hbar (by simp),
        hfront (by simp), hfront (by simp)]
    rw [hpart, hpart]
    exact (h.replace_exactly hmark hfixed hclear hread).comment (hread hh)
  | _, _, @Alike.cons _ c xs ys h => by
    rcases cases_of_rel ((h.cons c).isPrefixOf? hfixed) with
      ⟨hx, hy⟩ | ⟨rest, rest', hx, hy, hrest⟩
    · rw [replace_exactly_miss (isPrefixOf?_eq_none_iff.mp hx),
        replace_exactly_miss (isPrefixOf?_eq_none_iff.mp hy)]
      exact (h.replace_exactly hmark hfixed hclear hread).cons c
    · have hx := List.isPrefixOf?_eq_some_iff_append_eq.mp hx
      have hy := List.isPrefixOf?_eq_some_iff_append_eq.mp hy
      have hlt : rest.length < xs.length + 1 := by
        have hlen := congrArg List.length hx
        have hpos := List.length_pos_of_ne_nil hmark
        simp only [List.length_append, List.length_cons] at hlen
        omega
      rw [← hx, ← hy, replace_exactly_hit hmark, replace_exactly_hit hmark]
      exact (refl value).append (hrest.replace_exactly hmark hfixed hclear hread)
termination_by xs => xs.length
decreasing_by
  all_goals simp only [List.length_cons, List.length_append]
  all_goals omega

end MarkdownPreview.Comment
