import Mathlib.Data.List.Flatten
import MarkdownPreview.Proofs.Comments.Reaction
import MarkdownPreview.Proofs.Lowering.Pictures
import MarkdownPreview.Proofs.Rules.Run

/-!
# What the rules leave of the pictures

A picture holds its alternative text as a child, and the rules go down into it as into any other
token. What they do there is little: the rule for variables makes finished HTML of a text with a
variable in it (`Picture.after`), and no other rule changes anything. The rules for comments and
notes may take pictures out, and the others leave all of them (`shows_run`), so the pictures of a
document after some rules are pictures that it had before, in the same order (`shows_runRules`).

Pictures are counted token by token: no edit makes or changes one (`Counts`), and neither do
variables that are put together or blank lines that are put in.
-/

set_option autoImplicit false

namespace MarkdownPreview

/-! ## Pictures and variables -/

/-- The children of a picture with this alternative text, where variables are highlighted or not. -/
def alternative (highlighted : Bool) (alt : String) : List Token :=
  if alt.isEmpty then []
  else [if highlighted then Variable.highlightToken (Token.text alt) else Token.text alt]

/-- The token of a picture after variables have been highlighted, or before. -/
def Picture.after (highlighted : Bool) (pic : Picture) : Token :=
  { pic.token with children := some (alternative highlighted pic.alt) }

/-! ## Counting -/

/-- What counts something that only pictures and texts of blocks have, whatever the content of such
a text. -/
structure Counts (w : Token → List Token) : Prop where
  other : ∀ {t}, t.kind ≠ .image → t.kind ≠ .inline → w t = []
  content : ∀ {t} (content : String), t.kind = .inline → w { t with content } = w t

theorem counts_ownPictures : Counts ownPictures where
  other hk _ := if_neg hk
  content _ hk := by simp [ownPictures, hk]

theorem counts_picturesOf : Counts picturesOf where
  other _ hk := if_neg hk
  content _ hk := by simp [picturesOf, hk, Token.inner]

variable {w : Token → List Token} {ts us : List Token} {t u : Token}

theorem Counts.edit (hw : Counts w) (h : Edit t u) : w u = w t := by
  -- Both tokens are neither pictures nor texts of blocks.
  have hother {k k' : Kind} (ht : t.kind = k) (hu : u.kind = k') (hk : k ≠ .image ∧ k ≠ .inline)
      (hk' : k' ≠ .image ∧ k' ≠ .inline) : w u = w t := by
    subst ht hu
    rw [hw.other hk.1 hk.2, hw.other hk'.1 hk'.2]
  cases h with
  | refl => rfl
  | content content hk =>
    rcases hk with hk | hk
    · exact hother hk hk (by decide) (by decide)
    · exact hw.content content hk
  | anchor id hk => exact hother hk hk (by decide) (by decide)
  | mark hk => exact hother hk hk (by decide) (by decide)
  | html html hk _ =>
    rcases hk with hk | hk | hk
    · exact hother hk rfl (by decide) ⟨nofun, nofun⟩
    · exact hother hk rfl (by decide) ⟨nofun, nofun⟩
    · exact hother hk rfl (by decide) ⟨nofun, nofun⟩

theorem Counts.editedTo (hw : Counts w) (h : EditedTo ts us) : us.flatMap w = ts.flatMap w := by
  induction h with
  | nil => rfl
  | cons hedit _ ih => rw [List.flatMap_cons, List.flatMap_cons, hw.edit hedit, ih]

theorem Counts.text (hw : Counts w) (h : t.kind = .text) : w t = [] :=
  hw.other (by rw [h]; decide) (by rw [h]; decide)

theorem Counts.made (hw : Counts w) (h : Made t) : w t = [] := by
  cases h with
  | text content => exact hw.text rfl
  | html _ => exact hw.other nofun nofun

theorem Counts.flatMap_made (hw : Counts w) (h : ∀ t ∈ ts, Made t) : ts.flatMap w = [] :=
  List.flatMap_eq_nil_iff.mpr fun t ht => hw.made (h t ht)

theorem Counts.rejoinFrom (hw : Counts w) (before : Token) (ts : List Token) :
    (Variable.rejoinFrom before ts).flatMap w = (before :: ts).flatMap w := by
  induction before, ts using Variable.rejoinFrom.induct with
  | case1 before up raised down after ts name hname ih =>
    obtain ⟨hbefore, hup, hraised, hdown, hafter⟩ := Variable.kinds_of_takenApart? hname
    rw [Variable.rejoinFrom, hname]
    have hhtml : w (Variable.raisedHtml name) = [] := hw.made (.html (.raised name))
    have hup' : w up = [] := hw.other (by rw [hup]; decide) (by rw [hup]; decide)
    have hdown' : w down = [] := hw.other (by rw [hdown]; decide) (by rw [hdown]; decide)
    dsimp only at ih ⊢
    simp only [List.flatMap_cons, hhtml, ih, hw.text hbefore, hup', hw.text hraised, hdown',
      hw.text hafter, hw.text (t := { before with content := _ }) hbefore,
      hw.text (t := { after with content := _ }) hafter, List.nil_append]
  | case2 before up raised down after ts hname ih =>
    rw [Variable.rejoinFrom, hname, List.flatMap_cons, ih]
    rfl
  | case3 before ts hshort =>
    rw [Variable.rejoinFrom]
    exact hshort

theorem Counts.rejoin (hw : Counts w) (ts : List Token) :
    (Variable.rejoin ts).flatMap w = ts.flatMap w := by
  cases ts with
  | nil => rfl
  | cons t ts => exact hw.rejoinFrom t ts

theorem Counts.highlightLevel (hw : Counts w) (parent? : Option Kind) (ts : List Token) :
    (Variable.highlightLevel parent? ts).flatMap w = ts.flatMap w := by
  unfold Variable.highlightLevel
  split
  · rw [hw.editedTo (EditedTo.map Edit.highlightToken _), hw.rejoin]
  · rw [hw.editedTo (EditedTo.map Edit.highlightToken _)]

theorem Counts.addLevel (hw : Counts w) (ts : List Token) :
    (BlankLines.addLevel ts).flatMap w = ts.flatMap w := by
  induction ts with
  | nil => rfl
  | cons t ts ih =>
    have hnewline : w Token.newline = [] := hw.text rfl
    rw [BlankLines.addLevel]
    split <;> simp [hnewline, ih]

/-! ## Changing all levels -/

/-- A change of levels after which everything counts as it did before. -/
def KeepsCounts (f : Option Kind → List Token → List Token) : Prop :=
  ∀ w, Counts w → ∀ parent? ts, (f parent? ts).flatMap w = ts.flatMap w

theorem mapBelow_eq_map_mapLevels (f : Option Kind → List Token → List Token) (ts : List Token) :
    mapBelow f ts = ts.map (Token.mapLevels f) := by
  rw [mapBelow_eq_map]
  exact List.map_congr_left fun t _ => (Token.mapLevels_eq f t).symm

theorem kind_mapLevels (f : Option Kind → List Token → List Token) (t : Token) :
    (t.mapLevels f).kind = t.kind := by
  rw [Token.mapLevels_eq]

theorem picturesIn_map_mapLevels (f : Option Kind → List Token → List Token) (ts : List Token) :
    picturesIn (ts.map (Token.mapLevels f)) = (picturesIn ts).map (Token.mapLevels f) := by
  rw [picturesIn, picturesIn, List.flatMap_map, List.map_flatMap]
  refine List.flatMap_congr fun t _ => ?_
  rw [ownPictures, ownPictures, kind_mapLevels]
  split <;> rfl

theorem picturesOf_mapLevels {f : Option Kind → List Token → List Token} (hf : KeepsCounts f)
    (t : Token) : picturesOf (t.mapLevels f) = (picturesOf t).map (Token.mapLevels f) := by
  unfold picturesOf
  rw [kind_mapLevels]
  split
  · rw [Token.mapLevels_eq, Token.inner, Token.inner]
    dsimp only
    cases t.children with
    | none => rfl
    | some ts =>
      rw [mapChildren, Option.getD_some, Option.getD_some, picturesIn,
        hf ownPictures counts_ownPictures, mapBelow_eq_map_mapLevels]
      exact picturesIn_map_mapLevels f ts
  · rfl

/-- **The pictures of a tree whose levels are changed** are those it had, with their own levels
changed. -/
theorem pictures_mapLevels {f : Option Kind → List Token → List Token} (hf : KeepsCounts f)
    (ts : List Token) : pictures (mapLevels f ts) = (pictures ts).map (Token.mapLevels f) := by
  rw [pictures, mapLevels, hf picturesOf counts_picturesOf, mapBelow_eq_map_mapLevels,
    List.flatMap_map, pictures, List.map_flatMap]
  exact List.flatMap_congr fun t _ => picturesOf_mapLevels hf t

/-! ## What the rules do to a picture -/

/-- What a picture has as a child: a text, or finished HTML made of one. -/
def IsAlternative (t : Token) : Prop :=
  (t.kind = .text ∨ t.kind = .htmlBlock) ∧ t.children = none

theorem highlightToken_text (text : String) : Variable.highlightToken (Token.text text)
    = if Variable.occurs text then Token.html (Variable.highlight Prose.escape Prose.escape text)
      else Token.text text := rfl

theorem isAlternative_highlightToken (text : String) :
    IsAlternative (Variable.highlightToken (Token.text text)) := by
  rw [highlightToken_text]
  split
  · exact ⟨.inr rfl, rfl⟩
  · exact ⟨.inl rfl, rfl⟩

theorem isAlternative_of_mem {highlighted : Bool} {alt : String}
    (h : t ∈ alternative highlighted alt) : IsAlternative t := by
  unfold alternative at h
  split at h
  · cases h
  · rw [List.mem_singleton] at h
    subst h
    split
    · exact isAlternative_highlightToken alt
    · exact ⟨.inl rfl, rfl⟩

/-- A change of levels does to a picture what it does to the children of the picture. -/
theorem mapLevels_after {f : Option Kind → List Token → List Token}
    {highlighted highlighted' : Bool} {pic : Picture}
    (h : f (some .image) (alternative highlighted pic.alt) = alternative highlighted' pic.alt) :
    (pic.after highlighted).mapLevels f = pic.after highlighted' := by
  have hbelow : mapBelow f (alternative highlighted pic.alt) = alternative highlighted pic.alt := by
    have hid : ∀ t ∈ alternative highlighted pic.alt, t.mapLevels f = t := by
      intro t ht
      obtain ⟨-, hnone⟩ := isAlternative_of_mem ht
      obtain ⟨kind, tag, nesting, attrs, content, info, markup, children, block, hidden⟩ := t
      subst hnone
      rfl
    rw [mapBelow_eq_map_mapLevels, List.map_congr_left hid, List.map_id']
  have hchildren : mapChildren f (pic.after highlighted).kind (pic.after highlighted).children
      = some (alternative highlighted' pic.alt) := by
    rw [← h]
    exact congrArg (fun ts => some (f (some .image) ts)) hbelow
  rw [Token.mapLevels_eq, hchildren]
  rfl

theorem markLink_alternative (h : IsAlternative t) : Markdown.markLink t = t := by
  refine if_neg fun hk => ?_
  rcases h.1 with hk' | hk' <;> cases hk.symm.trans hk'

theorem renderLevel_alternative (spaced : Bool) (h : ∀ t ∈ ts, IsAlternative t) :
    Sample.renderLevel spaced ts = ts := by
  induction ts with
  | nil => rfl
  | cons t ts ih =>
    rw [List.forall_mem_cons] at h
    have hfence : ¬ (t.kind = .fence ∧ t.tag = "code") := by
      rintro ⟨hk, -⟩
      rcases h.1.1 with hk' | hk' <;> cases hk.symm.trans hk'
    rw [Sample.renderLevel, if_neg hfence, ih h.2]

theorem addLevel_alternative (h : ∀ t ∈ ts, IsAlternative t) : BlankLines.addLevel ts = ts := by
  induction ts with
  | nil => rfl
  | cons t ts ih =>
    rw [List.forall_mem_cons] at h
    have hends : BlankLines.endsPart t.kind = false := by
      rcases h.1.1 with hk | hk <;> rw [hk] <;> rfl
    rw [BlankLines.addLevel, hends, Bool.false_and, if_neg Bool.false_ne_true, ih h.2]

/-- A text whose variables have been highlighted has none left to highlight. -/
theorem highlightToken_idem (text : String) :
    Variable.highlightToken (Variable.highlightToken (Token.text text))
      = Variable.highlightToken (Token.text text) := by
  rw [highlightToken_text]
  split
  · rfl
  · rename_i hoccurs
    rw [highlightToken_text, if_neg hoccurs]

theorem highlightLevel_alternative (highlighted : Bool) (alt : String) :
    Variable.highlightLevel (some .image) (alternative highlighted alt) = alternative true alt := by
  unfold Variable.highlightLevel alternative
  rw [if_neg nofun]
  split
  · rfl
  · cases highlighted with
    | false => rfl
    | true =>
      simp only [if_true, List.map_singleton]
      rw [highlightToken_idem]

/-! ## Pictures that go -/

theorem dropSecondBreak_sublist (ts : List Token) :
    List.Sublist (Note.dropSecondBreak ts) ts := by
  unfold Note.dropSecondBreak
  split
  · split
    · exact (List.sublist_cons_self ..).cons_cons _
    · exact List.Sublist.refl _
  · exact List.Sublist.refl _

/-- The marks of a note take at most pictures with them. -/
theorem picturesIn_wrap_sublist (kind : Note.NoteKind) (ts : List Token) :
    List.Sublist (picturesIn (Note.wrap kind ts)) (picturesIn ts) := by
  unfold Note.wrap
  split
  · exact List.nil_sublist _
  · rename_i last _
    split
    · rename_i first rest hsplit
      have hopening : picturesIn (Note.openWith kind first) = [] :=
        counts_ownPictures.flatMap_made fun t ht => made_of_mem_openWith ht
      have hclosing : picturesIn (Note.close last) = [] :=
        counts_ownPictures.flatMap_made fun t ht => made_of_mem_close ht
      have hrest : List.Sublist (picturesIn rest) (picturesIn ts.dropLast) := by
        have hcons := (List.sublist_cons_self first rest).flatMap ownPictures
        rwa [← hsplit, List.flatMap_append, ← picturesIn, ← picturesIn, ← picturesIn, hclosing,
          List.append_nil] at hcons
      have hnote := (dropSecondBreak_sublist (Note.openWith kind first ++ rest)).flatMap ownPictures
      rw [List.flatMap_append, ← picturesIn, ← picturesIn, ← picturesIn, hopening,
        List.nil_append] at hnote
      exact (hnote.trans hrest).trans ((List.dropLast_sublist ts).flatMap ownPictures)
    · exact List.nil_sublist _

/-- A token of the top level that gets other children. -/
theorem picturesOf_children_sublist {f : List Token → List Token}
    (hf : ∀ ts, List.Sublist (picturesIn (f ts)) (picturesIn ts)) (content : String) (t : Token) :
    List.Sublist (picturesOf { t with content, children := t.children.map f }) (picturesOf t) := by
  unfold picturesOf Token.inner
  dsimp only
  split
  · cases t.children with
    | none => exact List.Sublist.refl _
    | some ts => exact hf ts
  · exact List.Sublist.refl _

theorem pictures_wrapAll_sublist (ts : List Token) :
    List.Sublist (pictures (Note.wrapAll ts)) (pictures ts) := by
  rw [pictures, Note.wrapAll, List.flatMap_map]
  refine List.Sublist.flatMap_right ts fun t _ => ?_
  unfold Note.wrapToken
  split
  · exact picturesOf_children_sublist (picturesIn_wrap_sublist _) t.content t
  · exact List.Sublist.refl _

/-! ## Where tokens stand -/

/-- Where tokens of a kind stand and whether they open something lasts, unless tokens of this kind
are made. -/
theorem tokenLasting_place {k : Kind} {Q : Option Kind → Nesting → Prop} (htext : k ≠ .text)
    (hhtml : k ≠ .htmlBlock) :
    TokenLasting fun parent? t => t.kind = k → Q parent? t.nesting where
  blind _ h := h
  edit he h := by
    cases he with
    | html => exact fun hk => absurd hk.symm hhtml
    | _ => exact h
  text _ _ := fun hk => absurd hk.symm htext
  html _ := fun hk => absurd hk.symm hhtml

/-! ## Pictures that go with comments -/

namespace Comment

theorem flatMap_modify_sublist {f : Token → Token} (hf : ∀ t, List.Sublist (w (f t)) (w t)) :
    ∀ (i : Nat) (ts : List Token), List.Sublist ((ts.modify i f).flatMap w) (ts.flatMap w)
  | i, [] => by simp
  | 0, t :: ts => by
    rw [List.modify_zero_cons, List.flatMap_cons, List.flatMap_cons]
    exact (hf t).append (List.Sublist.refl _)
  | i + 1, t :: ts => by
    rw [List.modify_succ_cons, List.flatMap_cons, List.flatMap_cons]
    exact (List.Sublist.refl _).append (flatMap_modify_sublist hf i ts)

/-- A text that is cut is no picture. -/
theorem picturesIn_cut {i : Nat} (cut : Token → String)
    (hk : ts[i]?.map Token.kind = some .text) :
    picturesIn (ts.modify i fun t => { t with content := cut t }) = picturesIn ts :=
  counts_ownPictures.editedTo
    (EditedTo.modify fun t ht => .content t (cut t) (.inl (by simpa [ht] using hk)))

theorem picturesIn_closeUpOnce?_sublist (h : closeUpOnce? ts = some us) :
    List.Sublist (picturesIn us) (picturesIn ts) := by
  simp only [closeUpOnce?, Option.bind_eq_bind, Option.bind_eq_some_iff, Option.pure_def,
    Option.some.injEq] at h
  obtain ⟨i, hi, j, hj, rfl⟩ := h
  have htail := kind_of_closesComment hj
  rw [← map_kind_getElem?_modify (f := fun t => { t with content := headOf (readable t) })
    (fun _ => rfl) i] at htail
  rw [← picturesIn_cut (fun t => headOf (readable t)) (kind_of_opensComment hi),
    ← picturesIn_cut (fun t => tailOf (readable t)) htail]
  exact (removeWithin_sublist (i + 1) j _).flatMap ownPictures

theorem picturesIn_closeUp_sublist (ts : List Token) :
    List.Sublist (picturesIn (closeUp ts)) (picturesIn ts) := by
  have hsteps (steps : Nat) : ∀ ts,
      List.Sublist (picturesIn (closeUpIn steps ts)) (picturesIn ts) := by
    induction steps with
    | zero => exact fun _ => List.Sublist.refl _
    | succ steps ih =>
      intro ts
      rw [closeUpIn]
      split
      · rename_i rest hrest
        exact (ih rest).trans (picturesIn_closeUpOnce?_sublist hrest)
      · exact List.Sublist.refl _
  exact hsteps _ ts

theorem picturesIn_childrenBefore_sublist (ts : List Token) :
    List.Sublist (picturesIn (childrenBefore ts)) (picturesIn ts) := by
  unfold childrenBefore
  split
  · exact List.Sublist.refl _
  · rename_i i hi
    dsimp only
    have hcut := picturesIn_cut (fun t => trimmedEnd (headOf (readable t)))
      (kind_of_opensComment hi)
    rw [← hcut]
    refine List.Sublist.flatMap
      (((keepPaired_sublist _).trans ?_).trans (List.take_sublist (i + 1) _)) ownPictures
    rw [Text.dropEndWhile_eq_rdropWhile]
    exact (List.rdropWhile_prefix showsNothing _).sublist

theorem picturesIn_childrenAfter_sublist (ts : List Token) :
    List.Sublist (picturesIn (childrenAfter ts)) (picturesIn ts) := by
  unfold childrenAfter
  split
  · exact List.Sublist.refl _
  · rename_i i hi
    dsimp only
    have hcut := picturesIn_cut (fun t => trimmedStart (tailOf (readable t)))
      (kind_of_closesComment hi)
    rw [← hcut]
    exact (((keepPaired_sublist _).trans (List.dropWhile_sublist showsNothing)).trans
      (List.drop_sublist i _)).flatMap ownPictures

theorem picturesOf_closeUpToken_sublist (t : Token) :
    List.Sublist (picturesOf (closeUpToken t)) (picturesOf t) := by
  unfold closeUpToken
  split
  · exact List.Sublist.refl _
  · rename_i ts hts
    split
    · have h := picturesOf_children_sublist picturesIn_closeUp_sublist (remove (readable t)) t
      rwa [hts] at h
    · exact List.Sublist.refl _

theorem picturesOf_cutHead_sublist (head : String) (t : Token) :
    List.Sublist (picturesOf (cutHead head t)) (picturesOf t) := by
  unfold cutHead
  split
  · exact List.Sublist.refl _
  · exact picturesOf_children_sublist picturesIn_childrenBefore_sublist head t

theorem picturesOf_cutTail_sublist (tail : String) (t : Token) :
    List.Sublist (picturesOf (cutTail tail t)) (picturesOf t) := by
  unfold cutTail
  split
  · exact List.Sublist.refl _
  · exact picturesOf_children_sublist picturesIn_childrenAfter_sublist tail t

theorem pictures_takeOutAcross_sublist (ts : List Token) (i : Nat) (text : String) :
    List.Sublist (pictures (takeOutAcross ts i text).1) (pictures ts) := by
  unfold takeOutAcross
  split
  · exact List.Sublist.refl _
  · rename_i j _
    dsimp only
    generalize trimmedEnd (headOf text) = head
    generalize trimmedStart ((ts[j]?.map fun t => tailOf (readable t)).getD "") = tail
    have htail := flatMap_modify_sublist (picturesOf_cutTail_sublist tail) j ts
    have hhead := flatMap_modify_sublist (picturesOf_cutHead_sublist head) i
      (ts.modify j (cutTail tail))
    exact ((filterPlaces_sublist _ _).flatMap picturesOf).trans (hhead.trans htail)

theorem pictures_visit_sublist (ts : List Token) (i : Nat) :
    List.Sublist (pictures (visit ts i).1) (pictures ts) := by
  unfold visit
  split
  · exact List.Sublist.refl _
  · rename_i t ht
    split
    · dsimp only
      have hclosed : List.Sublist (pictures (ts.set i (closeUpToken t))) (pictures ts) := by
        rw [set_eq_modify closeUpToken ht]
        exact flatMap_modify_sublist picturesOf_closeUpToken_sublist i ts
      split
      · exact ((takeOutBlock_sublist _ i).flatMap picturesOf).trans hclosed
      · split
        · exact (pictures_takeOutAcross_sublist _ i _).trans hclosed
        · exact hclosed
    · exact List.Sublist.refl _

theorem pictures_removeFromLevel_sublist (ts : List Token) :
    List.Sublist (pictures (removeFromLevel ts)) (pictures ts) := by
  have hsteps (steps : Nat) : ∀ i ts,
      List.Sublist (pictures (levelFrom steps i ts)) (pictures ts) := by
    induction steps with
    | zero => exact fun _ _ => List.Sublist.refl _
    | succ steps ih =>
      intro i ts
      rw [levelFrom]
      exact (ih _ _).trans (pictures_visit_sublist ts i)
  exact hsteps _ _ ts

theorem tokenLasting_isTopText : TokenLasting IsTopText :=
  tokenLasting_place (Q := fun parent? nesting => parent? = none ∧ nesting = .selfClosing)
    (by decide) (by decide)

/-- Comments are taken out of the top level only. -/
theorem removeAll_eq_removeFromLevel (h : Everywhere IsTopText ts) :
    removeAll ts = removeFromLevel ts := by
  unfold removeAll
  cases levelDepth ts with
  | zero => rfl
  | succ depth =>
    have hlevel := holdsAt_removeFromLevel tokenLasting_isTopText.lasting h
    exact map_removeTo_children depth hlevel.2 (removeTo_below depth)

end Comment

/-! ## Rules -/

/-- Pictures do not stand on the top level. -/
def IsPictureWithin (parent? : Option Kind) (t : Token) : Prop := t.kind = .image → parent? ≠ none

theorem tokenLasting_isPictureWithin : TokenLasting IsPictureWithin :=
  tokenLasting_place (Q := fun parent? _ => parent? ≠ none) (by decide) (by decide)

variable {c : Conditions} {d : Draft} {r : Rule} {pics : List Picture} {highlighted : Bool}
  {whole : Prop}

/-- A change of levels does to the pictures what it does to each of them. -/
theorem Shows.mapLevels {f : Option Kind → List Token → List Token} {g g' : Picture → Token}
    (hf : KeepsCounts f) (hg : ∀ pic, (g pic).mapLevels f = g' pic)
    (h : Shows whole g (pictures ts) pics) :
    Shows whole g' (pictures (MarkdownPreview.mapLevels f ts)) pics := by
  have hmap : (pics.map g).map (Token.mapLevels f) = pics.map g' := by
    rw [List.map_map]
    exact List.map_congr_left fun pic _ => hg pic
  rw [pictures_mapLevels hf]
  exact ⟨hmap ▸ h.sublist.map _, fun hwhole => by rw [h.eq hwhole, hmap]⟩

/-- A change of levels that leaves the children of pictures as they are leaves the pictures. -/
theorem Shows.mapLevels_alternative {f : Option Kind → List Token → List Token}
    (hf : KeepsCounts f) (halt : ∀ ts, (∀ t ∈ ts, IsAlternative t) → f (some .image) ts = ts)
    (h : Shows whole (Picture.after highlighted) (pictures ts) pics) :
    Shows whole (Picture.after highlighted) (pictures (MarkdownPreview.mapLevels f ts)) pics :=
  h.mapLevels hf fun _ => mapLevels_after (halt _ fun _ => isAlternative_of_mem)

/-- **What a rule leaves of the pictures**: those that the rules for comments and notes take out are
gone, and the rule for variables has gone over the others. -/
theorem shows_run (hplace : Everywhere Comment.IsTopText d.tokens)
    (h : Shows whole (Picture.after highlighted) (pictures d.tokens) pics) :
    Shows (whole ∧ r ≠ .notes ∧ (r = .comments → c.html = true))
      (Picture.after (Rule.variables == r || highlighted)) (pictures (r.run c d).tokens) pics := by
  match r with
  | .headings =>
    have hedit := counts_picturesOf.editedTo (editedTo_addAll d.tokens d.slugs)
    rw [← pictures, ← pictures] at hedit
    rw [← hedit] at h
    exact h.imp And.left
  | .links =>
    refine .imp (h.mapLevels_alternative (fun w hw _ ts => ?_) fun ts hts => ?_) And.left
    · exact hw.editedTo (EditedTo.map Edit.markLink ts)
    · rw [List.map_congr_left fun t ht => markLink_alternative (hts t ht), List.map_id']
  | .comments =>
    rw [Rule.run]
    split
    · exact h.imp And.left
    · rename_i hhtml
      refine h.part ?_ fun hwhole => hhtml (hwhole.2.2 rfl)
      rw [Comment.removeAll_eq_removeFromLevel hplace]
      exact Comment.pictures_removeFromLevel_sublist d.tokens
  | .notes => exact h.part (pictures_wrapAll_sublist d.tokens) fun hwhole => hwhole.2.1 rfl
  | .variables =>
    refine .imp (h.mapLevels (fun w hw => hw.highlightLevel) fun pic => ?_) And.left
    exact mapLevels_after (highlightLevel_alternative highlighted pic.alt)
  | .samples =>
    refine .imp (h.mapLevels_alternative (fun w hw _ ts => ?_) fun _ => ?_) And.left
    · exact hw.editedTo (editedTo_renderLevel c.spaced ts)
    · exact renderLevel_alternative c.spaced
  | .spacing =>
    refine .imp (h.mapLevels_alternative (fun w hw _ ts => ?_) fun _ => ?_) And.left
    · exact hw.addLevel ts
    · exact addLevel_alternative

/-- **The pictures of a document after some rules** are pictures that it had before, in order; none
is missing unless notes were wrapped or comments taken out. -/
theorem shows_runRules (rules : List Rule) (hplace : Everywhere Comment.IsTopText d.tokens)
    (h : Shows whole (Picture.after highlighted) (pictures d.tokens) pics) :
    Shows (whole ∧ Rule.notes ∉ rules ∧ (Rule.comments ∈ rules → c.html = true))
      (Picture.after (rules.contains .variables || highlighted))
      (pictures (runRules c rules d).tokens) pics := by
  induction rules generalizing d highlighted whole with
  | nil => exact h.imp And.left
  | cons r rules ih =>
    have hrest := ih (Comment.tokenLasting_isTopText.run c r hplace) (shows_run (c := c) hplace h)
    rw [List.contains_cons, Bool.or_comm (Rule.variables == r), Bool.or_assoc]
    refine hrest.imp fun ⟨hwhole, hnotes, hcomments⟩ => ?_
    rw [List.mem_cons, not_or] at hnotes
    exact ⟨⟨hwhole, Ne.symm hnotes.1, fun hr => hcomments (hr ▸ List.mem_cons_self)⟩, hnotes.2,
      fun hmem => hcomments (List.mem_cons_of_mem r hmem)⟩

end MarkdownPreview
