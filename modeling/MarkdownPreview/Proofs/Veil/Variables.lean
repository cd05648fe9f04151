import MarkdownPreview.Proofs.Veil.Comments
import MarkdownPreview.Proofs.Veil.Pieces
import MarkdownPreview.Variable.Highlight

/-!
# What comments hide does not matter to variables

If no comment hides the mark of a variable, texts that are alike have the same variables, and become
the same finished HTML, since that has no comments. A variable that superscripts have taken apart is
found by its brackets, which are not in a comment either.
-/

set_option autoImplicit false

namespace MarkdownPreview.Variable

open Comment Text

variable {hides : List Char → List Char → Prop} {xs ys : List Char} {x y : String}
  {t u before before' up up' raised raised' down down' after after' : Token} {ts us : List Token}

/-! ## Variables in a text -/

variable (hw : WellHidden hides) (hm : Markless hides)

include hw hm

theorem alikePieces_markedName (h : AlikeText hides x y) :
    AlikePieces hides (pieces markedName x.toList) (pieces markedName y.toList) :=
  (sees_markedName hm hw.oneLine).pieces h

theorem occurs_eq_of_alike (h : AlikeText hides x y) : occurs x = occurs y := by
  rw [occurs, occurs, occurs_eq, occurs_eq,
    Veil.isEmpty_eq (alikePieces_markedName hw hm h).rest]

/-- **Alike texts are the same once their variables are highlighted.** -/
theorem highlight_eq (h : AlikeText hides x y) :
    highlight Prose.escape Prose.escape x = highlight Prose.escape Prose.escape y := by
  have hp := alikePieces_markedName hw hm h
  have hescape {cs ds : List Char} (h : Alike hides cs ds) :
      Prose.escape (String.ofList cs) = Prose.escape (String.ofList ds) :=
    hw.escape_eq (by simpa [AlikeText] using h)
  simp only [highlight]
  rw [hescape hp.first]
  congr 2
  exact Veil.map_eq (fun hpair => by rw [hescape hpair.1, hescape hpair.2]) hp.rest

/-! ## Variables taken apart -/

omit hw hm

/-- No comment ends in an opening bracket, so both texts do or neither. -/
theorem reverse_bracket_cases (h : Alike hides xs ys) :
    (∃ us vs, xs.reverse = '<' :: us ∧ ys.reverse = '<' :: vs ∧ Alike hides us.reverse vs.reverse)
      ∨ (∀ us, xs.reverse ≠ '<' :: us) ∧ ∀ vs, ys.reverse ≠ '<' :: vs := by
  have hlast {hides : List Char → List Char → Prop} {xs ys us : List Char} (h : Alike hides xs ys)
      (hx : xs.reverse = '<' :: us) :
      ∃ vs, ys.reverse = '<' :: vs ∧ Alike hides us.reverse vs.reverse := by
    have hxs : xs = us.reverse ++ ['<'] := by
      rw [← List.reverse_cons, ← hx, List.reverse_reverse]
    obtain ⟨vs, rfl, hvs⟩ := h.of_concat hxs (.inl (by decide))
    exact ⟨vs.reverse, by simp, by simpa using hvs⟩
  by_cases hx : ∃ us, xs.reverse = '<' :: us
  · obtain ⟨us, hus⟩ := hx
    obtain ⟨vs, hvs, huv⟩ := hlast h hus
    exact .inl ⟨us, vs, hus, hvs, huv⟩
  · refine .inr ⟨fun us hus => hx ⟨us, hus⟩, ?_⟩
    intro vs hvs
    obtain ⟨us, hus, -⟩ := hlast h.symm hvs
    exact hx ⟨us, hus⟩

theorem dropLastBracket_alike (h : AlikeText hides x y) :
    AlikeText hides (dropLastBracket x) (dropLastBracket y) := by
  unfold dropLastBracket
  rcases reverse_bracket_cases h with ⟨us, vs, hx, hy, huv⟩ | ⟨hx, hy⟩
  · rw [hx, hy]
    simpa [AlikeText] using huv
  · split
    · rename_i hus
      exact absurd hus (hx _)
    · exact h

theorem dropFirstBracket_alike (h : AlikeText hides x y) :
    AlikeText hides (dropFirstBracket x) (dropFirstBracket y) := by
  unfold dropFirstBracket
  rcases Alike.bracket_cases h with ⟨us, vs, hx, hy, huv⟩ | ⟨hx, hy⟩
  · rw [hx, hy]
    simpa [AlikeText] using huv
  · split
    · rename_i hus
      exact absurd hus (hx _)
    · exact h

/-- A name between brackets is one in both texts, as it is found on one line. -/
theorem raisedName?_rel (hl : OneLine hides) (h : AlikeText hides x y) :
    Option.Rel (AlikeText hides) (raisedName? x) (raisedName? y) := by
  unfold raisedName?
  rcases Alike.bracket_cases h with ⟨us, vs, hx, hy, huv⟩ | ⟨hx, hy⟩
  · rw [hx, hy]
    simp only
    rcases reverse_bracket_cases huv with ⟨name, name', hus, hvs, hname⟩ | ⟨hus, hvs⟩
    · have hline : name.contains '\n' = name'.contains '\n' := by
        rw [Bool.eq_iff_iff, List.contains_iff_mem, List.contains_iff_mem, ← List.mem_reverse,
          hname.mem_iff hl, List.mem_reverse]
      rw [hus, hvs]
      simp only [hline]
      split
      · exact .none
      · exact .some (by simpa [AlikeText] using hname)
    · split
      · rename_i hname
        exact absurd hname (hus _)
      · exact .none
  · split
    · rename_i hname
      exact absurd hname (hx _)
    · exact .none

/-! ## Putting them together -/

theorem takenApart?_rel (hl : OneLine hides) (hb : LeafLike hides before before')
    (hu : LeafLike hides up up') (hr : LeafLike hides raised raised')
    (hd : LeafLike hides down down') (ha : LeafLike hides after after') :
    Option.Rel (AlikeText hides) (takenApart? before up raised down after)
      (takenApart? before' up' raised' down' after') := by
  unfold takenApart?
  rw [hb.kind_eq, hu.kind_eq, hr.kind_eq, hd.kind_eq, ha.kind_eq]
  split
  · exact raisedName?_rel hl hr.content
  · exact .none

theorem levelLike_rejoinFrom (hw : WellHidden hides) (hb : LeafLike hides before before')
    (h : LevelLike hides ts us) :
    LevelLike hides (rejoinFrom before ts) (rejoinFrom before' us) := by
  induction before, ts using rejoinFrom.induct generalizing before' us with
  | case1 before up raised down after ts name hname ih =>
    obtain _ | ⟨hu, _ | ⟨hr, _ | ⟨hd, _ | ⟨ha, h⟩⟩⟩⟩ := h
    rcases cases_of_rel (takenApart?_rel hw.oneLine hb hu hr hd ha) with
      ⟨hnone, -⟩ | ⟨_, name', hsome, hname', hnames⟩
    · rw [hname] at hnone
      cases hnone
    · rw [hname, Option.some.injEq] at hsome
      subst hsome
      simp only [rejoinFrom, hname, hname', raisedHtml, hw.escape_eq hnames]
      exact .cons (hb.recut dropLastBracket_alike)
        (.cons (.same (by simp [Token.html])) (ih (ha.recut dropFirstBracket_alike) h))
  | case2 before up raised down after ts hname ih =>
    obtain _ | ⟨hu, h⟩ := h
    have hrejoined := ih hu h
    obtain _ | ⟨hr, _ | ⟨hd, _ | ⟨ha, h⟩⟩⟩ := h
    rcases cases_of_rel (takenApart?_rel hw.oneLine hb hu hr hd ha) with
      ⟨-, hname'⟩ | ⟨_, _, hsome, -, -⟩
    · rw [rejoinFrom, hname, rejoinFrom, hname']
      exact .cons hb hrejoined
    · rw [hname] at hsome
      cases hsome
  | case3 before ts hshort =>
    have hshort' : ∀ up raised down after vs,
        us = up :: raised :: down :: after :: vs → False := by
      rintro up raised down after vs rfl
      obtain _ | ⟨hu, _ | ⟨hr, _ | ⟨hd, _ | ⟨ha, h⟩⟩⟩⟩ := h
      exact hshort _ _ _ _ _ rfl
    rw [rejoinFrom, rejoinFrom]
    · exact .cons hb h
    · exact hshort'
    · exact hshort

theorem levelLike_rejoin (hw : WellHidden hides) (h : LevelLike hides ts us) :
    LevelLike hides (rejoin ts) (rejoin us) := by
  cases h with
  | nil => exact .nil
  | cons htu h => exact levelLike_rejoinFrom hw htu h

/-! ## The whole rule -/

theorem highlightToken_eq (t : Token) : highlightToken t =
    if t.kind = .text then
      if occurs t.content then Token.html (highlight Prose.escape Prose.escape t.content) else t
    else if t.kind = .codeInline then
      Token.html ("<code>" ++ highlight Html.escape Html.escape t.content ++ "</code>")
    else t := by
  cases hk : t.kind <;> simp [highlightToken, hk]

theorem leafLike_highlightToken (hw : WellHidden hides) (hm : Markless hides)
    (h : LeafLike hides t u) : LeafLike hides (highlightToken t) (highlightToken u) := by
  have hhtml (html : String) : LeafLike hides (Token.html html) (Token.html html) :=
    .same (by simp [Token.html])
  cases h with
  | @same t hk =>
    rw [highlightToken_eq]
    split
    · split
      · exact hhtml _
      · exact .same hk
    · split
      · exact hhtml _
      · exact .same hk
  | @text t x y hk h =>
    rw [highlightToken_eq, highlightToken_eq, if_pos hk, if_pos hk]
    simp only [occurs_eq_of_alike hw hm h, highlight_eq hw hm h]
    split
    · exact hhtml _
    · exact .text hk h

theorem blockLike_highlightToken (h : BlockLike hides t u) :
    BlockLike hides (highlightToken t) (highlightToken u) := by
  have hhtml (html : String) : BlockLike hides (Token.html html) (Token.html html) :=
    .refl (by simp [Token.html])
  cases h with
  | @plain t markup hk =>
    simp only [highlightToken_eq]
    split
    · split
      · exact hhtml _
      · exact .plain markup hk
    · split
      · exact hhtml _
      · exact .plain markup hk
  | line h hcs => exact .line h hcs

/-- **Highlighting variables leaves documents alike.** -/
theorem discreet_highlightLevel (hw : WellHidden hides) (hm : Markless hides) :
    Discreet hides highlightLevel where
  line h := List.rel_map (fun _ _ htu => leafLike_highlightToken hw hm htu) (levelLike_rejoin hw h)
  blocks h := List.rel_map (fun _ _ htu => blockLike_highlightToken htu) h

end MarkdownPreview.Variable
