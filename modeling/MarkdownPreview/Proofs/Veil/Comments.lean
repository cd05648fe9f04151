import MarkdownPreview.Comment.Removal
import MarkdownPreview.Proofs.Tree.Depth
import MarkdownPreview.Proofs.Veil.Reading
import MarkdownPreview.Proofs.Veil.Tokens

/-!
# What comments hide does not matter to their removal

Each step of taking comments out of a document looks for the marks of comments and at what is
outside of them. On levels that are alike it finds the same places and leaves levels that are alike
(`documentLike_removeAll`). Only the bound on how often comments are closed up is read off all
characters, but it is never reached (`contentSize_closeUpOnce?_lt`), so it may differ.
-/

set_option autoImplicit false

namespace MarkdownPreview.Comment

open Text

variable {hides : List Char → List Char → Prop} {x y : String} {t u : Token} {ts us : List Token}

/-! ## Texts -/

/-- Comments are hidden well, also when brackets are read. -/
structure WellHidden (hides : List Char → List Char → Prop) : Prop where
  oneLine : OneLine hides
  endOnce : EndOnce hides
  reads : ∀ {old new}, hides old new → hides (brackets old) (brackets new)

theorem WellHidden.remove_eq (hw : WellHidden hides) (h : AlikeText hides x y) :
    remove x = remove y := by
  have hin : ∀ {old new : List Char}, hides old new →
      (old.all fun _ => true) = true ∧ (new.all fun _ => true) = true := by
    simp
  rw [remove, remove]
  exact congrArg String.ofList (h.erase_commentOf hin hw.endOnce)

theorem WellHidden.removeOnLine_eq (hw : WellHidden hides) (h : AlikeText hides x y) :
    removeOnLine x = removeOnLine y := by
  have hclear {body : List Char} (hb : '\n' ∉ body) : body.all (· != '\n') = true := by
    rw [List.all_eq_true]
    intro c hc
    rw [bne_iff_ne]
    rintro rfl
    exact hb hc
  have hin : ∀ {old new : List Char}, hides old new →
      old.all (· != '\n') = true ∧ new.all (· != '\n') = true := fun hh =>
    ⟨hclear (hw.oneLine hh).1, hclear (hw.oneLine hh).2⟩
  rw [removeOnLine, removeOnLine]
  exact congrArg String.ofList (h.erase_commentOf hin hw.endOnce)

theorem WellHidden.escape_eq (hw : WellHidden hides) (h : AlikeText hides x y) :
    Prose.escape x = Prose.escape y := by
  rw [Prose.escape, Prose.glyphs, hw.removeOnLine_eq h, Prose.escape, Prose.glyphs]

theorem WellHidden.beforeDangling?_eq (hw : WellHidden hides) (h : AlikeText hides x y) :
    beforeDangling? x = beforeDangling? y := by
  rw [beforeDangling?, beforeDangling?, hw.remove_eq h]

theorem WellHidden.hasEnd_eq (hw : WellHidden hides) (h : AlikeText hides x y) :
    hasEnd x = hasEnd y := h.hasEnd_eq hw.endOnce

theorem WellHidden.headOf_eq (hw : WellHidden hides) (h : AlikeText hides x y) :
    headOf x = headOf y := by
  rw [headOf, headOf, hw.beforeDangling?_eq h]

theorem WellHidden.tailOf (hw : WellHidden hides) (h : AlikeText hides x y) :
    AlikeText hides (tailOf x) (tailOf y) := by
  rw [Comment.tailOf, Comment.tailOf, afterEnd?, afterEnd?]
  rcases cases_of_rel (h.afterEnd_rel hw.endOnce) with ⟨hx, hy⟩ | ⟨a, b, hx, hy, hab⟩
  · rw [hx, hy]
  · rw [hx, hy]
    simpa [AlikeText] using hab

theorem WellHidden.readBrackets (hw : WellHidden hides) (h : AlikeText hides x y) :
    AlikeText hides (Html.readBrackets x) (Html.readBrackets y) := by
  rw [AlikeText, toList_readBrackets, toList_readBrackets]
  -- Between the two passes, comments hold bodies that have been read by the first.
  have hopened : Alike (fun a b => ∃ old new, hides old new
      ∧ a = replace (exactly Html.Entity.lt.chars ['<']) old
      ∧ b = replace (exactly Html.Entity.lt.chars ['<']) new)
      (replace (exactly Html.Entity.lt.chars ['<']) x.toList)
      (replace (exactly Html.Entity.lt.chars ['<']) y.toList) :=
    h.replace_exactly (by decide) (by decide) (List.forall_iff_forall_mem.mp (by decide))
      fun hh => ⟨_, _, hh, rfl, rfl⟩
  refine hopened.replace_exactly (by decide) (by decide)
    (List.forall_iff_forall_mem.mp (by decide)) ?_
  rintro _ _ ⟨old, new, hh, rfl, rfl⟩
  exact hw.reads hh

/-! ## How long it takes -/

theorem length_remove_le (x : String) : (remove x).length ≤ x.length := by
  rw [remove, String.length_ofList, ← String.length_toList]
  exact (erase_sublist _ _).length_le

theorem length_readable_le (t : Token) : (readable t).length ≤ t.content.length := by
  rw [readable, ← String.length_toList, ← String.length_toList, toList_readBrackets, brackets]
  exact (length_replace_exactly_le (by decide) (by decide) _).trans
    (length_replace_exactly_le (by decide) (by decide) _)

theorem length_tailOf_le (x : String) : (tailOf x).length ≤ x.length := by
  rw [tailOf, afterEnd?, ← String.length_toList, ← String.length_toList]
  cases hcut : cut? endMark x.toList with
  | none => simp
  | some cut =>
    have hlen := congrArg List.length (append_of_cut?_eq_some hcut)
    simp only [List.length_append] at hlen
    simp only [Option.map_some, Option.getD_some, String.toList_ofList]
    omega

/-- What stays before a comment that is left open is shorter by its mark. -/
theorem length_headOf_lt (h : isDangling x = true) :
    (headOf x).length < x.length := by
  obtain ⟨head, hhead⟩ := Option.isSome_iff_exists.mp h
  obtain ⟨⟨before, after⟩, hcut, rfl⟩ := Option.map_eq_some_iff.mp hhead
  have hlen := congrArg List.length (append_of_cut?_eq_some hcut)
  have hle := length_remove_le x
  simp only [List.length_append, startMark, List.length_cons, String.length_toList] at hlen
  rw [headOf, hhead, Option.getD_some, String.length_ofList]
  omega

theorem contentSize_le_of_sublist (h : List.Sublist us ts) : contentSize us ≤ contentSize ts := by
  induction h with
  | slnil => rfl
  | cons t _ ih =>
    rw [contentSize]
    omega
  | cons_cons t _ ih =>
    rw [contentSize, contentSize]
    omega

theorem contentSize_modify {f : Token → Token} {i : Nat} (ht : ts[i]? = some t) :
    contentSize (ts.modify i f) + t.content.length = contentSize ts + (f t).content.length := by
  induction ts generalizing i with
  | nil => cases ht
  | cons t₀ ts ih =>
    cases i with
    | zero =>
      obtain rfl : t₀ = t := by simpa using ht
      simp only [List.modify_zero_cons, contentSize]
      omega
    | succ i =>
      have hrest := ih (i := i) (by simpa using ht)
      simp only [List.modify_succ_cons, contentSize]
      omega

/-- Closing up a comment takes characters with it. -/
theorem contentSize_closeUpOnce?_lt (h : closeUpOnce? ts = some us) :
    contentSize us < contentSize ts := by
  simp only [closeUpOnce?, Option.bind_eq_bind, Option.bind_eq_some_iff, Option.pure_def,
    Option.some.injEq] at h
  obtain ⟨i, hi, j, hj, rfl⟩ := h
  obtain ⟨t, ht, hopen, -⟩ := placeFrom?_some hi
  obtain ⟨u, hu, -, hij⟩ := placeFrom?_some hj
  rw [opensComment, Bool.and_eq_true] at hopen
  have hhead : (headOf (readable t)).length < t.content.length :=
    (length_headOf_lt hopen.2).trans_le (length_readable_le t)
  have htail : (tailOf (readable u)).length ≤ u.content.length :=
    (length_tailOf_le _).trans (length_readable_le u)
  refine (contentSize_le_of_sublist (removeWithin_sublist _ _ _)).trans_lt ?_
  have hfirst := contentSize_modify (f := fun t => { t with content := headOf (readable t) }) ht
  have hu' := hu
  rw [← List.getElem?_modify_ne (fun t => { t with content := headOf (readable t) }) ts
    (Nat.ne_of_lt hij)] at hu'
  have hsecond := contentSize_modify (f := fun t => { t with content := tailOf (readable t) }) hu'
  simp only at hfirst hsecond
  omega

/-! ## Tokens -/

variable (hw : WellHidden hides)

include hw

theorem WellHidden.readable (h : AlikeText hides t.content u.content) :
    AlikeText hides (readable t) (readable u) := hw.readBrackets h

theorem opensComment_eq (h : LeafLike hides t u) : opensComment t = opensComment u := by
  rw [opensComment, opensComment, h.kind_eq, isDangling, isDangling,
    hw.beforeDangling?_eq (hw.readable h.content)]

theorem closesComment_eq (h : LeafLike hides t u) : closesComment t = closesComment u := by
  rw [closesComment, closesComment, h.kind_eq, hw.hasEnd_eq (hw.readable h.content)]

/-- A text cut off at a comment is one that is alike. -/
theorem LeafLike.cut {f : String → String}
    (hf : ∀ {x y}, AlikeText hides x y → AlikeText hides (f x) (f y)) (h : LeafLike hides t u) :
    LeafLike hides { t with content := f (Comment.readable t) }
      { u with content := f (Comment.readable u) } :=
  h.recut fun h => hf (hw.readBrackets h)

theorem headOf_alike (h : AlikeText hides x y) : AlikeText hides (headOf x) (headOf y) := by
  rw [hw.headOf_eq h]

theorem trimmedHead_alike (h : AlikeText hides x y) :
    AlikeText hides (trimmedEnd (headOf x)) (trimmedEnd (headOf y)) := by
  rw [hw.headOf_eq h]

omit hw in
theorem trimmedStart_alike (h : AlikeText hides x y) :
    AlikeText hides (trimmedStart x) (trimmedStart y) := by
  have htrim := h.dropWhile (p := isBlank) (by decide)
  simpa [AlikeText, trimmedStart, trimStart] using htrim

theorem trimmedTail_alike (h : AlikeText hides x y) :
    AlikeText hides (trimmedStart (tailOf x)) (trimmedStart (tailOf y)) :=
  trimmedStart_alike (hw.tailOf h)

omit hw

theorem placeFrom?_eq {R : Token → Token → Prop} {p : Token → Bool}
    (hp : ∀ {t u}, R t u → p t = p u) (start : Nat) (h : List.Forall₂ R ts us) :
    placeFrom? p start ts = placeFrom? p start us := by
  rw [placeFrom?, placeFrom?, Veil.findIdx?_eq (p := p) (q := p) hp (List.forall₂_drop start h)]

theorem pairs_eq {R : Token → Token → Prop} (hR : ∀ {t u}, R t u → t.nesting = u.nesting)
    (h : List.Forall₂ R ts us) : pairs ts = pairs us :=
  pairsFrom_congr (Veil.map_eq hR h)

theorem forall₂_removeWithin {R : Token → Token → Prop}
    (hR : ∀ {t u}, R t u → t.nesting = u.nesting) (start stop : Nat) (h : List.Forall₂ R ts us) :
    List.Forall₂ R (removeWithin start stop ts) (removeWithin start stop us) := by
  rw [removeWithin, removeWithin, pairs_eq hR h]
  apply forall₂_filterPlaces _ h
  intro t u htu i
  rw [canGo, canGo, hR htu]

theorem forall₂_keepPaired {R : Token → Token → Prop}
    (hR : ∀ {t u}, R t u → t.nesting = u.nesting) (h : List.Forall₂ R ts us) :
    List.Forall₂ R (keepPaired ts) (keepPaired us) := by
  rw [keepPaired, keepPaired, pairs_eq hR h]
  apply forall₂_filterPlaces _ h
  intro t u htu i
  rw [hR htu]

include hw

/-! ## Within one block -/

theorem closeUpOnce?_rel (h : LevelLike hides ts us) :
    Option.Rel (LevelLike hides) (closeUpOnce? ts) (closeUpOnce? us) := by
  have hopen (start : Nat) := placeFrom?_eq (p := opensComment) (opensComment_eq hw) start h
  have hclose (start : Nat) := placeFrom?_eq (p := closesComment) (closesComment_eq hw) start h
  simp only [closeUpOnce?, hopen, hclose]
  cases placeFrom? opensComment 0 us with
  | none => exact .none
  | some i =>
    simp only [Option.bind_eq_bind, Option.bind_some]
    cases placeFrom? closesComment (i + 1) us with
    | none => exact .none
    | some j =>
      refine .some (forall₂_removeWithin LeafLike.nesting_eq (i + 1) j ?_)
      exact Veil.forall₂_modify (fun _ => LeafLike.cut hw hw.tailOf)
        (Veil.forall₂_modify (fun _ => LeafLike.cut hw (headOf_alike hw)) h)

/-- Closing up goes on until there is nothing to close up, whatever characters there are. -/
theorem levelLike_closeUpIn : ∀ (n m : Nat) {ts us : List Token}, contentSize ts ≤ n →
    contentSize us ≤ m → LevelLike hides ts us →
    LevelLike hides (closeUpIn n ts) (closeUpIn m us) := by
  intro n
  induction n with
  | zero =>
    -- Without characters there is nothing to close up, so the other level stays as well.
    intro m ts us hn hm h
    have hnone : closeUpOnce? ts = none := by
      cases hts : closeUpOnce? ts with
      | none => rfl
      | some ts' => exact absurd (contentSize_closeUpOnce?_lt hts) (by omega)
    rcases cases_of_rel (closeUpOnce?_rel hw h) with ⟨-, hus⟩ | ⟨_, _, hts, -, -⟩
    · cases m with
      | zero => exact h
      | succ m => simpa [closeUpIn, hus] using h
    · rw [hnone] at hts
      cases hts
  | succ n ih =>
    intro m ts us hn hm h
    rcases cases_of_rel (closeUpOnce?_rel hw h) with ⟨hts, hus⟩ | ⟨ts', us', hts, hus, h'⟩
    · cases m with
      | zero => simpa [closeUpIn, hts] using h
      | succ m => simpa [closeUpIn, hts, hus] using h
    · have hn' := contentSize_closeUpOnce?_lt hts
      have hm' := contentSize_closeUpOnce?_lt hus
      cases m with
      | zero => omega
      | succ m =>
        rw [closeUpIn, closeUpIn, hts, hus]
        exact ih m (by omega) (by omega) h'

theorem levelLike_closeUp (h : LevelLike hides ts us) :
    LevelLike hides (closeUp ts) (closeUp us) :=
  levelLike_closeUpIn hw _ _ le_rfl le_rfl h

omit hw in
theorem showsNothing_eq (h : LeafLike hides t u) : showsNothing t = showsNothing u := by
  cases h with
  | same => rfl
  | text hk h =>
    simp only [showsNothing, hk]
    exact isEmpty_eq_of_alike h

theorem levelLike_childrenBefore (h : LevelLike hides ts us) :
    LevelLike hides (childrenBefore ts) (childrenBefore us) := by
  rw [childrenBefore, childrenBefore,
    placeFrom?_eq (p := opensComment) (opensComment_eq hw) 0 h]
  split
  · exact h
  · rename_i i _
    have hcut := Veil.forall₂_modify (i := i) (fun _ => LeafLike.cut hw (trimmedHead_alike hw)) h
    exact forall₂_keepPaired LeafLike.nesting_eq
      (Veil.forall₂_dropEndWhile showsNothing_eq (List.forall₂_take (i + 1) hcut))

theorem levelLike_childrenAfter (h : LevelLike hides ts us) :
    LevelLike hides (childrenAfter ts) (childrenAfter us) := by
  rw [childrenAfter, childrenAfter,
    placeFrom?_eq (p := closesComment) (closesComment_eq hw) 0 h]
  split
  · exact h
  · rename_i i _
    have hcut := Veil.forall₂_modify (i := i) (fun _ => LeafLike.cut hw (trimmedTail_alike hw)) h
    exact forall₂_keepPaired LeafLike.nesting_eq
      (Veil.forall₂_dropWhile showsNothing_eq (List.forall₂_drop i hcut))

/-! ## Blocks -/

theorem closeUpToken_alike (h : BlockLike hides t u) (hk : t.kind = .inline) :
    BlockLike hides (closeUpToken t) (closeUpToken u) := by
  cases h with
  | plain _ hk' => exact absurd hk hk'
  | @line x y cs ds h hcs =>
    simp only [closeUpToken, Token.inline]
    rcases cases_of_rel (closeUpOnce?_rel hw hcs) with ⟨hx, hy⟩ | ⟨_, _, hx, hy, -⟩
    · rw [hx, hy]
      exact .line h hcs
    · have hread : remove (readable (Token.inline x cs)) = remove (readable (Token.inline y ds)) :=
        hw.remove_eq (hw.readable h)
      rw [hx, hy]
      simp only [Token.inline] at hread
      simp only [Option.isSome_some, if_true, hread]
      exact .line (.refl _) (levelLike_closeUp hw hcs)

theorem endsAcross_eq (h : BlockLike hides t u) : endsAcross t = endsAcross u := by
  rw [endsAcross, endsAcross, h.kind_eq, hw.hasEnd_eq (hw.readable h.content)]

theorem cutHead_alike (head : String) (h : BlockLike hides t u) :
    BlockLike hides (cutHead head t) (cutHead head u) := by
  rw [cutHead, cutHead]
  split
  · exact h
  · cases h with
    | plain markup hk => exact .plain markup hk
    | line h hcs => exact .line (.refl _) (levelLike_childrenBefore hw hcs)

theorem cutTail_alike {tail tail' : String} (ht : AlikeText hides tail tail')
    (h : BlockLike hides t u) (hk : t.kind = .inline) :
    BlockLike hides (cutTail tail t) (cutTail tail' u) := by
  rw [cutTail, cutTail, isEmpty_eq_of_alike ht]
  split
  · exact h
  · cases h with
    | plain _ hk' => exact absurd hk hk'
    | line _ hcs => exact .line ht (levelLike_childrenAfter hw hcs)

omit hw in
theorem isAt_eq (h : DocumentLike hides ts us) (i : Nat) (k : Kind) :
    isAt ts i k = isAt us i k := by
  rw [isAt, isAt]
  rcases cases_of_rel (Veil.getElem?_rel h i) with ⟨hx, hy⟩ | ⟨t, u, hx, hy, htu⟩
  · rw [hx, hy]
  · rw [hx, hy, Option.any_some, Option.any_some, htu.kind_eq]

omit hw in
theorem isBefore_eq (h : DocumentLike hides ts us) (i : Nat) (k : Kind) :
    isBefore ts i k = isBefore us i k := by
  rw [isBefore, isBefore, isAt_eq h]

omit hw in
theorem takeOutBlock_alike (h : DocumentLike hides ts us) (i : Nat) :
    DocumentLike hides (takeOutBlock ts i).1 (takeOutBlock us i).1
      ∧ (takeOutBlock ts i).2 = (takeOutBlock us i).2 := by
  unfold takeOutBlock
  rw [isBefore_eq h, isAt_eq h, h.length_eq]
  split
  split
  · exact ⟨h, rfl⟩
  · exact ⟨List.rel_append (List.forall₂_take _ h) (List.forall₂_drop _ h), rfl⟩

omit hw in
theorem coveredRange_eq {head tail tail' : String} (ht : AlikeText hides tail tail')
    (h : DocumentLike hides ts us) (i j : Nat) :
    coveredRange ts i j head tail = coveredRange us i j head tail' := by
  rw [coveredRange, coveredRange, isEmpty_eq_of_alike ht, isBefore_eq h, isAt_eq h]

omit hw in
theorem forall₂_stays (ps : List (Nat × Nat)) (start stop : Nat) (h : DocumentLike hides ts us) :
    DocumentLike hides (filterPlaces (fun t k => !canGo ps start stop t k) ts)
      (filterPlaces (fun t k => !canGo ps start stop t k) us) := by
  apply forall₂_filterPlaces _ h
  intro t u htu k
  rw [canGo, canGo, htu.nesting_eq]

/-- What is left of the block where a comment ends. -/
theorem tailAt_alike (h : DocumentLike hides ts us) (j : Nat) :
    AlikeText hides (trimmedStart ((ts[j]?.map fun t => tailOf (readable t)).getD ""))
      (trimmedStart ((us[j]?.map fun t => tailOf (readable t)).getD "")) := by
  have htail : AlikeText hides ((ts[j]?.map fun t => tailOf (readable t)).getD "")
      ((us[j]?.map fun t => tailOf (readable t)).getD "") := by
    rcases cases_of_rel (Veil.getElem?_rel h j) with ⟨hx, hy⟩ | ⟨t, u, hx, hy, htu⟩
    · rw [hx, hy]
    · rw [hx, hy, Option.map_some, Option.map_some, Option.getD_some, Option.getD_some]
      exact hw.tailOf (hw.readable htu.content)
  exact trimmedStart_alike htail

theorem takeOutAcross_alike (h : DocumentLike hides ts us) (i : Nat) (hxy : AlikeText hides x y) :
    DocumentLike hides (takeOutAcross ts i x).1 (takeOutAcross us i y).1
      ∧ (takeOutAcross ts i x).2 = (takeOutAcross us i y).2 := by
  unfold takeOutAcross
  rw [hw.headOf_eq hxy, ← placeFrom?_eq (p := endsAcross) (endsAcross_eq hw) (i + 1) h]
  split
  · exact ⟨h, rfl⟩
  · rename_i j hj
    have htail := tailAt_alike hw h j
    have hcut {tail tail' : String} (htail : AlikeText hides tail tail') (head : String) :
        DocumentLike hides ((ts.modify j (cutTail tail)).modify i (cutHead head))
          ((us.modify j (cutTail tail')).modify i (cutHead head)) := by
      refine Veil.forall₂_modify (fun _ => cutHead_alike hw head) (Veil.forall₂_modify ?_ h)
      intro t u ht htu
      have hk := kind_of_endsAcross hj
      rw [ht, Option.map_some, Option.some.injEq] at hk
      exact cutTail_alike hw htail htu hk
    dsimp only
    rw [coveredRange_eq htail h, pairs_eq BlockLike.nesting_eq h]
    exact ⟨forall₂_stays _ _ _ (hcut htail _),
      (forall₂_stays _ _ _ (List.forall₂_take _ h)).length_eq⟩

/-! ## A level and a document -/

theorem visit_alike (h : DocumentLike hides ts us) (i : Nat) :
    DocumentLike hides (visit ts i).1 (visit us i).1 ∧ (visit ts i).2 = (visit us i).2 := by
  unfold visit
  rcases cases_of_rel (Veil.getElem?_rel h i) with ⟨hx, hy⟩ | ⟨t, u, hx, hy, htu⟩
  · rw [hx, hy]
    exact ⟨h, rfl⟩
  · have hstart : hasStart (readable t) = hasStart (readable u) :=
      (hw.readable htu.content).hasStart_eq
    rw [hx, hy]
    simp only [htu.kind_eq, hstart]
    split
    · rename_i hcond
      -- The block is closed up first; what it then reads decides what else happens.
      have hclosed := closeUpToken_alike hw htu (htu.kind_eq.trans hcond.1)
      have hlevel := Veil.forall₂_set hclosed i h
      have hread := hw.readable hclosed.content
      have hdangling : isDangling (readable (closeUpToken t))
          = isDangling (readable (closeUpToken u)) := by
        rw [isDangling, isDangling, hw.beforeDangling?_eq hread]
      rw [hw.remove_eq hread, hdangling]
      split
      · exact takeOutBlock_alike hlevel i
      · split
        · exact takeOutAcross_alike hw hlevel i hread
        · exact ⟨hlevel, rfl⟩
    · exact ⟨h, rfl⟩

theorem removeFromLevel_alike (h : DocumentLike hides ts us) :
    DocumentLike hides (removeFromLevel ts) (removeFromLevel us) := by
  have hsteps (steps : Nat) : ∀ i ts us, DocumentLike hides ts us →
      DocumentLike hides (levelFrom steps i ts) (levelFrom steps i us) := by
    induction steps with
    | zero => exact fun _ _ _ h => h
    | succ steps ih =>
      intro i ts us h
      obtain ⟨hlevel, hnext⟩ := visit_alike hw h i
      show DocumentLike hides (levelFrom steps (visit ts i).2 (visit ts i).1)
        (levelFrom steps (visit us i).2 (visit us i).1)
      rw [hnext]
      exact ih _ _ _ hlevel
  -- Both levels have as many tokens, so they are visited as often.
  rw [removeFromLevel, removeFromLevel, h.length_eq]
  exact hsteps _ _ _ _ h

omit hw in
/-- There is nothing to do on a level without blocks. -/
theorem removeFromLevel_leaves (h : ∀ t ∈ ts, t.kind ≠ .inline) : removeFromLevel ts = ts := by
  have hvisit (i : Nat) : visit ts i = (ts, i + 1) := by
    unfold visit
    split
    · rfl
    · rename_i t ht
      rw [if_neg fun hcond => h t (List.mem_of_getElem? ht) hcond.1]
  have hsteps (steps : Nat) : ∀ i, levelFrom steps i ts = ts := by
    induction steps with
    | zero => exact fun _ => rfl
    | succ steps ih =>
      intro i
      rw [levelFrom, hvisit]
      exact ih (i + 1)
  exact hsteps _ 0

omit hw in
theorem levelLike_removeTo (depth : Nat) (h : LevelLike hides ts us) :
    LevelLike hides (removeTo depth ts) (removeTo depth us) := by
  obtain ⟨hts, hus⟩ := leaves_of_levelLike h
  cases depth with
  | zero => rwa [removeTo, removeTo, removeFromLevel_leaves hts, removeFromLevel_leaves hus]
  | succ depth =>
    rw [removeTo, removeTo, removeFromLevel_leaves hts, removeFromLevel_leaves hus]
    exact List.rel_map (fun _ _ htu => htu.below (Option.map (removeTo depth))) h

theorem documentLike_removeTo (depth : Nat) (h : DocumentLike hides ts us) :
    DocumentLike hides (removeTo depth ts) (removeTo depth us) := by
  have hlevel := removeFromLevel_alike hw h
  cases depth with
  | zero => exact hlevel
  | succ depth =>
    rw [removeTo, removeTo]
    refine List.rel_map (fun t u htu => ?_) hlevel
    cases htu with
    | plain markup hk => exact .plain markup hk
    | line h hcs => exact .line h (levelLike_removeTo depth hcs)

omit hw in
theorem levelDepth_leaves (h : LevelLike hides ts us) : levelDepth ts = levelDepth us := by
  induction h with
  | nil => rfl
  | cons htu _ ih => rw [levelDepth, levelDepth, ih, Token.depth_eq, Token.depth_eq, htu.children_eq]

omit hw in
theorem levelDepth_eq (h : DocumentLike hides ts us) : levelDepth ts = levelDepth us := by
  induction h with
  | nil => rfl
  | cons htu _ ih =>
    rw [levelDepth, levelDepth, ih, Token.depth_eq, Token.depth_eq]
    cases htu with
    | plain => rfl
    | line _ hcs => simp only [Token.inline, childrenDepth, levelDepth_leaves hcs]

/-- **Taking comments out leaves documents that are alike.** -/
theorem documentLike_removeAll (h : DocumentLike hides ts us) :
    DocumentLike hides (removeAll ts) (removeAll us) := by
  rw [removeAll, removeAll, levelDepth_eq h]
  exact documentLike_removeTo hw _ h

end MarkdownPreview.Comment
