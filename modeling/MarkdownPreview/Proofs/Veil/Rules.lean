import MarkdownPreview.Preview.Rule
import MarkdownPreview.Proofs.Rules.Run
import MarkdownPreview.Proofs.Veil.Variables

/-!
# What comments hide does not matter to the other rules

Links, notes, variables, code samples and blank lines are found by what a comment cannot hide, so
each of these rules leaves documents that are alike. A text in which a variable is highlighted is
even the same in both documents from then on, since it becomes finished HTML without its comments.
-/

set_option autoImplicit false

namespace MarkdownPreview

open Comment Text

variable {hides : List Char → List Char → Prop} {xs ys : List Char} {x y : String} {t u : Token}
  {ts us : List Token}

/-! ## Links -/

theorem LeafLike.markLink (h : LeafLike hides t u) :
    LeafLike hides (Markdown.markLink t) (Markdown.markLink u) := by
  cases h with
  | @same t hk =>
    refine .same ?_
    unfold Markdown.markLink
    split
    · exact hk
    · exact hk
  | @text t x y hk h =>
    have hid (z : String) : Markdown.markLink { t with content := z } = { t with content := z } :=
      if_neg (by simp [hk])
    rw [hid, hid]
    exact .text hk h

theorem BlockLike.markLink (h : BlockLike hides t u) :
    BlockLike hides (Markdown.markLink t) (Markdown.markLink u) := by
  cases h with
  | plain markup hk =>
    unfold Markdown.markLink
    split
    · exact .plain markup hk
    · exact .plain markup hk
  | line h hcs => exact .line h hcs

theorem discreet_markLinks : Discreet hides fun _ => List.map Markdown.markLink where
  line h := List.rel_map (fun _ _ htu => LeafLike.markLink htu) h
  blocks h := List.rel_map (fun _ _ htu => BlockLike.markLink htu) h

/-! ## Notes -/

theorem Comment.Alike.of_append_endMark {pre : List Char} (h : Alike hides xs ys)
    (heq : xs = pre ++ Note.endMark) :
    ∃ pre', ys = pre' ++ Note.endMark ∧ Alike hides pre pre' := by
  -- The mark is taken off from its end: before its bracket there is no dash.
  subst heq
  obtain ⟨us, hus, h⟩ := h.of_concat (by simp [Note.endMark] : _ = (pre ++ ['<', '$']) ++ ['>'])
    (.inr (by simp [List.singleton_suffix_iff_getLast?_eq_some]))
  obtain ⟨vs, hvs, h⟩ := h.of_concat (by simp : _ = (pre ++ ['<']) ++ ['$']) (.inl (by decide))
  obtain ⟨ws, hws, h⟩ := h.of_concat rfl (.inl (by decide))
  exact ⟨ws, by simp [Note.endMark, hus, hvs, hws], h⟩

/-- The end of a note is no end of a comment. -/
theorem Comment.Alike.isSuffixOf?_endMark (h : Alike hides xs ys) :
    Option.Rel (Alike hides) (Note.endMark.isSuffixOf? xs) (Note.endMark.isSuffixOf? ys) := by
  cases hx : Note.endMark.isSuffixOf? xs with
  | some pre =>
    obtain ⟨pre', hy, hpre⟩ :=
      h.of_append_endMark (List.isSuffixOf?_eq_some_iff_append_eq.mp hx).symm
    rw [List.isSuffixOf?_eq_some_iff_append_eq.mpr hy.symm]
    exact .some hpre
  | none =>
    cases hy : Note.endMark.isSuffixOf? ys with
    | none => exact .none
    | some pre' =>
      obtain ⟨pre, hx', -⟩ :=
        h.symm.of_append_endMark (List.isSuffixOf?_eq_some_iff_append_eq.mp hy).symm
      rw [List.isSuffixOf?_eq_some_iff_append_eq.mpr hx'.symm] at hx
      cases hx

namespace Note

theorem isFixed_startMark (kind : NoteKind) : Alike.isFixed (startMark kind) = true := by
  cases kind <;> decide

/-- A note has something between its marks in both texts or in neither. -/
theorem isNoteOf_eq (h : Alike hides xs ys) (kind : NoteKind) :
    isNoteOf xs kind = isNoteOf ys kind := by
  unfold isNoteOf
  rcases cases_of_rel (h.isPrefixOf? (isFixed_startMark kind)) with
    ⟨hx, hy⟩ | ⟨rest, rest', hx, hy, hrest⟩
  · rw [hx, hy]
  · rw [hx, hy]
    simp only [← List.isSome_isSuffixOf?_eq_isSuffixOf]
    rcases cases_of_rel hrest.isSuffixOf?_endMark with ⟨hx, hy⟩ | ⟨pre, pre', hx, hy, hpre⟩
    · rw [hx, hy]
      rfl
    · have hlong {pre rest : List Char} (h : endMark.isSuffixOf? rest = some pre) :
          endMark.length < rest.length ↔ pre ≠ [] := by
        rw [← List.isSuffixOf?_eq_some_iff_append_eq.mp h, List.length_append,
          ← List.length_pos_iff]
        omega
      rw [hx, hy]
      simp only [gt_iff_lt, hlong hx, hlong hy, ne_eq, hpre.nil_iff, Option.isSome_some]

theorem kindOf?_eq (h : AlikeText hides x y) : kindOf? x = kindOf? y := by
  rw [kindOf?, kindOf?, funext (isNoteOf_eq h)]

theorem levelLike_close (h : LeafLike hides t u) : LevelLike hides (close t) (close u) := by
  have hclosing : LeafLike hides closingTag closingTag := .same (by decide)
  have hcut : Option.Rel (Alike hides)
      (if t.kind = .text then endMark.isSuffixOf? t.content.toList else none)
      (if u.kind = .text then endMark.isSuffixOf? u.content.toList else none) := by
    rw [h.kind_eq]
    split
    · exact h.content.isSuffixOf?_endMark
    · exact .none
  unfold close
  rcases cases_of_rel hcut with ⟨hx, hy⟩ | ⟨pre, pre', hx, hy, hpre⟩
  · rw [hx, hy]
    exact .cons hclosing .nil
  · rw [hx, hy]
    cases pre with
    | nil =>
      rw [hpre.nil_iff.mp rfl]
      exact .cons hclosing .nil
    | cons c cs =>
      obtain ⟨ds, rfl⟩ := hpre.exists_cons
      exact .cons (leafLike_text hpre) (.cons hclosing .nil)

theorem levelLike_openWith (kind : NoteKind) (h : LeafLike hides t u) :
    LevelLike hides (openWith kind t) (openWith kind u) := by
  have hopening : LeafLike hides (openingTag kind) (openingTag kind) :=
    .same (by simp [openingTag, Token.html])
  have hcut : Option.Rel (Alike hides)
      (if t.kind = .text then (startMark kind).isPrefixOf? t.content.toList else none)
      (if u.kind = .text then (startMark kind).isPrefixOf? u.content.toList else none) := by
    rw [h.kind_eq]
    split
    · exact h.content.isPrefixOf? (isFixed_startMark kind)
    · exact .none
  unfold openWith
  rcases cases_of_rel hcut with ⟨hx, hy⟩ | ⟨rest, rest', hx, hy, hrest⟩
  · rw [hx, hy]
    exact .cons hopening .nil
  · rw [hx, hy]
    cases rest with
    | nil =>
      rw [hrest.nil_iff.mp rfl]
      exact .cons hopening .nil
    | cons c cs =>
      obtain ⟨ds, rfl⟩ := hrest.exists_cons
      exact .cons hopening (.cons (leafLike_text hrest) .nil)

theorem levelLike_dropSecondBreak (h : LevelLike hides ts us) :
    LevelLike hides (dropSecondBreak ts) (dropSecondBreak us) := by
  cases h with
  | nil => exact .nil
  | cons htu h =>
    cases h with
    | nil => exact .cons htu .nil
    | cons hnext h =>
      rw [dropSecondBreak, dropSecondBreak, hnext.kind_eq]
      split
      · exact .cons htu h
      · exact .cons htu (.cons hnext h)

theorem levelLike_wrap (kind : NoteKind) (h : LevelLike hides ts us) :
    LevelLike hides (wrap kind ts) (wrap kind us) := by
  unfold wrap
  rcases cases_of_rel (Veil.getLast?_rel h) with ⟨hx, hy⟩ | ⟨last, last', hx, hy, hlast⟩
  · rw [hx, hy]
    exact .nil
  · have hclosed := List.rel_append (Veil.forall₂_dropLast h) (levelLike_close hlast)
    rw [hx, hy]
    dsimp only at hclosed ⊢
    generalize ts.dropLast ++ close last = closed at hclosed ⊢
    generalize us.dropLast ++ close last' = closed' at hclosed ⊢
    cases hclosed with
    | nil => exact .nil
    | cons hfirst hrest =>
      exact levelLike_dropSecondBreak (List.rel_append (levelLike_openWith kind hfirst) hrest)

/-- **Notes are wrapped alike.** -/
theorem documentLike_wrapAll (h : DocumentLike hides ts us) :
    DocumentLike hides (wrapAll ts) (wrapAll us) := by
  refine List.rel_map (fun t u htu => ?_) h
  unfold wrapToken
  rw [kindOf?_eq htu.content]
  split
  · rename_i kind _
    cases htu with
    | plain markup hk => exact .plain markup hk
    | line h hcs => exact .line h (levelLike_wrap kind hcs)
  · exact htu

end Note

/-! ## Code samples -/

/-- Whether the next token is of some kinds is the same in levels of the same kinds. -/
theorem head?_any_eq {R : Token → Token → Prop} (hk : ∀ {t u}, R t u → t.kind = u.kind)
    (p : Kind → Bool) (h : List.Forall₂ R ts us) :
    (ts.head?.any fun next => p next.kind) = us.head?.any fun next => p next.kind := by
  cases h with
  | nil => rfl
  | cons htu _ => simp [hk htu]

/-- Tokens that are written alike as samples are so at any place. -/
theorem forall₂_renderLevel {R : Token → Token → Prop} (spaced : Bool)
    (hk : ∀ {t u}, R t u → t.kind = u.kind)
    (hr : ∀ {t u}, R t u → ∀ finalBreak,
      R (if t.kind = .fence ∧ t.tag = "code" then
          Token.html (Sample.render t.content t.info finalBreak) else t)
        (if u.kind = .fence ∧ u.tag = "code" then
          Token.html (Sample.render u.content u.info finalBreak) else u))
    (h : List.Forall₂ R ts us) :
    List.Forall₂ R (Sample.renderLevel spaced ts) (Sample.renderLevel spaced us) := by
  induction h with
  | nil => exact .nil
  | cons htu h ih =>
    simp only [Sample.renderLevel, head?_any_eq hk (· == .fence) h]
    exact .cons (hr htu _) ih

theorem discreet_renderLevel (spaced : Bool) :
    Discreet hides fun _ => Sample.renderLevel spaced where
  line := by
    refine forall₂_renderLevel spaced LeafLike.kind_eq ?_
    intro t u h finalBreak
    cases h with
    | same hk =>
      refine .same ?_
      split
      · simp [Token.html]
      · exact hk
    | @text t x y hk h =>
      rw [if_neg (by simp [hk]), if_neg (by simp [hk])]
      exact .text hk h
  blocks := by
    refine forall₂_renderLevel spaced BlockLike.kind_eq ?_
    intro t u h finalBreak
    cases h with
    | plain markup hk =>
      simp only
      split
      · exact .refl (by simp [Token.html])
      · exact .plain markup hk
    | line h hcs => exact .line h hcs

/-! ## Blank lines -/

theorem forall₂_addLevel {R : Token → Token → Prop} (hk : ∀ {t u}, R t u → t.kind = u.kind)
    (hnewline : R Token.newline Token.newline) (h : List.Forall₂ R ts us) :
    List.Forall₂ R (BlankLines.addLevel ts) (BlankLines.addLevel us) := by
  induction h with
  | nil => exact .nil
  | cons htu h ih =>
    rw [BlankLines.addLevel, BlankLines.addLevel, hk htu, head?_any_eq hk BlankLines.suppresses h]
    split
    · exact .cons htu (.cons hnewline ih)
    · exact .cons htu ih

theorem discreet_addLevel : Discreet hides fun _ => BlankLines.addLevel where
  line := forall₂_addLevel LeafLike.kind_eq (.same (by decide))
  blocks := forall₂_addLevel BlockLike.kind_eq (.refl (by decide))

/-! ## Any rules -/

/-- **Every rule but that of headings leaves documents alike.** -/
theorem documentLike_run (hw : WellHidden hides) {r : Rule} (hr : r ≠ .headings)
    (hm : r = .variables → Markless hides) (c : Conditions) {d d' : Draft}
    (h : DocumentLike hides d.tokens d'.tokens) :
    DocumentLike hides (r.run c d).tokens (r.run c d').tokens := by
  match r with
  | .headings => exact absurd rfl hr
  | .links => exact discreet_markLinks.mapLevels h
  | .comments =>
    rw [Rule.run, Rule.run]
    split
    · exact h
    · exact Comment.documentLike_removeAll hw h
  | .notes => exact Note.documentLike_wrapAll h
  | .variables => exact (Variable.discreet_highlightLevel hw (hm rfl)).mapLevels h
  | .samples => exact (discreet_renderLevel c.spaced).mapLevels h
  | .spacing => exact discreet_addLevel.mapLevels h

/-- **Any sequence of rules without that of headings leaves documents alike.** -/
theorem documentLike_runRules (hw : WellHidden hides) (c : Conditions) {rules : List Rule}
    (hr : .headings ∉ rules) (hm : .variables ∈ rules → Markless hides) {d d' : Draft}
    (h : DocumentLike hides d.tokens d'.tokens) :
    DocumentLike hides (runRules c rules d).tokens (runRules c rules d').tokens := by
  induction rules generalizing d d' with
  | nil => exact h
  | cons r rules ih =>
    refine ih (fun hmem => hr (List.mem_cons_of_mem r hmem))
      (fun hmem => hm (List.mem_cons_of_mem r hmem)) ?_
    refine documentLike_run hw ?_ ?_ c h
    · rintro rfl
      exact hr List.mem_cons_self
    · rintro rfl
      exact hm List.mem_cons_self

end MarkdownPreview
