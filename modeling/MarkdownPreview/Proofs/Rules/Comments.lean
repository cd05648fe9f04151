import MarkdownPreview.Proofs.Rules.Edit
import MarkdownPreview.Proofs.Text.Trim

/-!
# What taking out comments keeps

A property of levels that lasts (`Lasting`) still holds of every level after the comments have been
taken out (`EveryLevel.removeAll`). The proof goes through the rule from the inside out: comments
within one block, comments at one end of a block, a block that goes, several blocks that go, one
visit, one level, all levels. At each step the claim is the same, `HoldsAt` before gives `HoldsAt`
after.
-/

set_option autoImplicit false

namespace MarkdownPreview

variable {Q : LevelProp} {parent? : Option Kind} {ts us : List Token}

/-! ## The things done to a level -/

theorem HoldsAt.edit (hQ : Lasting Q) (he : EditedTo ts us) (h : HoldsAt Q parent? ts) :
    HoldsAt Q parent? us :=
  ⟨hQ.edit he h.1, holdBelow_iff.mpr (he.forall_mem Edit.holdsBelow (holdBelow_iff.mp h.2))⟩

theorem HoldsAt.within (hQ : Lasting Q) (start stop : Nat) (h : HoldsAt Q parent? ts) :
    HoldsAt Q parent? (removeWithin start stop ts) :=
  ⟨hQ.within start stop h.1, h.2.subset (removeWithin_sublist start stop ts).subset⟩

theorem HoldsAt.before (hQ : Lasting Q) (n : Nat) (h : HoldsAt Q parent? ts) :
    HoldsAt Q parent? (keepPaired (ts.take n)) :=
  ⟨hQ.before n h.1,
    h.2.subset ((keepPaired_sublist _).trans (List.take_sublist n ts)).subset⟩

theorem HoldsAt.after (hQ : Lasting Q) (n : Nat) (h : HoldsAt Q parent? ts) :
    HoldsAt Q parent? (keepPaired (ts.drop n)) :=
  ⟨hQ.after n h.1,
    h.2.subset ((keepPaired_sublist _).trans (List.drop_sublist n ts)).subset⟩

theorem HoldsAt.block (hQ : Lasting Q) {i : Nat} (hk : ts[i]?.map Token.kind = some .inline)
    (h : HoldsAt Q parent? ts) : HoldsAt Q parent? (Comment.takeOutBlock ts i).1 :=
  ⟨hQ.block hk h.1, h.2.subset (takeOutBlock_sublist ts i).subset⟩

/-- Two changes of one token are the same to `g` if they are on every token. -/
theorem map_modify_congr {α : Type} {g : Token → α} {f f' : Token → Token}
    (h : ∀ t, g (f t) = g (f' t)) (i : Nat) (ts : List Token) :
    (ts.modify i f).map g = (ts.modify i f').map g := by
  apply List.ext_getElem?
  intro n
  simp only [List.getElem?_map, List.getElem?_modify]
  cases ts[n]? with
  | none => rfl
  | some t => by_cases hn : i = n <;> simp [hn, h]

theorem map_modify_eq {α : Type} {g : Token → α} {f : Token → Token} (h : ∀ t, g (f t) = g t)
    (i : Nat) (ts : List Token) : (ts.modify i f).map g = ts.map g := by
  have hid : (ts.modify i f).map g = (ts.modify i id).map g := map_modify_congr h i ts
  rwa [List.modify_id] at hid

theorem set_eq_modify (f : Token → Token) {i : Nat} {t : Token} (ht : ts[i]? = some t) :
    ts.set i (f t) = ts.modify i f := by
  apply List.ext_getElem?
  intro n
  rw [List.getElem?_set', List.getElem?_modify]
  by_cases hn : i = n
  · subst hn
    simp [ht]
  · simp [hn]

theorem map_kind_getElem?_modify {f : Token → Token} (hf : ∀ t, (f t).kind = t.kind) (i j : Nat)
    (ts : List Token) : ((ts.modify i f)[j]?).map Token.kind = ts[j]?.map Token.kind := by
  rw [← List.getElem?_map, ← List.getElem?_map, map_modify_eq hf]

/-- A text, or the text of a block, gets another content, and children whose levels hold again. -/
theorem HoldsAt.modify (hQ : Lasting Q) {i : Nat} {content : Token → String}
    {children : Token → Option (List Token)}
    (hk : ts[i]?.map Token.kind = some .text ∨ ts[i]?.map Token.kind = some .inline)
    (hb : ∀ t : Token, t.HoldsBelow Q →
      Token.HoldsBelow Q { t with content := content t, children := children t })
    (h : HoldsAt Q parent? ts) : HoldsAt Q parent?
      (ts.modify i fun t => { t with content := content t, children := children t }) := by
  -- The content first, which is an edit, and then the children, to which `Q` is blind.
  have hedit : EditedTo ts (ts.modify i fun t => { t with content := content t }) := by
    refine EditedTo.modify fun t ht => .content t (content t) ?_
    simpa [ht] using hk
  have hchildless :
      (ts.modify i fun t => { t with content := content t, children := children t }).map
          Token.childless
        = (ts.modify i fun t => { t with content := content t }).map Token.childless :=
    map_modify_congr (fun t => by rfl) i ts
  refine ⟨hQ.blind hchildless (hQ.edit hedit h.1), holdBelow_iff.mpr ?_⟩
  intro u hu
  obtain ⟨n, hn⟩ := List.mem_iff_getElem?.mp hu
  rw [List.getElem?_modify] at hn
  obtain ⟨t, ht, rfl⟩ := Option.map_eq_some_iff.mp hn
  have htb : t.HoldsBelow Q := holdBelow_iff.mp h.2 t (List.mem_of_getElem? ht)
  split
  · exact hb t htb
  · exact htb

namespace Comment

/-! ## Comments within one block -/

theorem placeFrom?_some {p : Token → Bool} {start i : Nat}
    (h : placeFrom? p start ts = some i) : ∃ t, ts[i]? = some t ∧ p t = true ∧ start ≤ i := by
  obtain ⟨n, hn, rfl⟩ := Option.map_eq_some_iff.mp h
  obtain ⟨hlt, hp, -⟩ := List.findIdx?_eq_some_iff_getElem.mp hn
  refine ⟨(ts.drop start)[n], ?_, hp, Nat.le_add_left start n⟩
  rw [Nat.add_comm, ← List.getElem?_drop]
  exact List.getElem?_eq_getElem hlt

theorem placeFrom?_eq_none_iff {p : Token → Bool} {start : Nat} :
    placeFrom? p start ts = none ↔ ∀ i t, start ≤ i → ts[i]? = some t → p t = false := by
  rw [placeFrom?, Option.map_eq_none_iff, List.findIdx?_eq_none_iff]
  constructor
  · intro h i t hi ht
    refine h t (List.mem_of_getElem? (i := i - start) ?_)
    rwa [List.getElem?_drop, Nat.add_sub_cancel' hi]
  · intro h t ht
    obtain ⟨n, hn⟩ := List.mem_iff_getElem?.mp ht
    rw [List.getElem?_drop] at hn
    exact h (start + n) t (Nat.le_add_right start n) hn

theorem kind_of_opensComment {i start : Nat} (h : placeFrom? opensComment start ts = some i) :
    ts[i]?.map Token.kind = some .text := by
  obtain ⟨t, ht, hp, -⟩ := placeFrom?_some h
  rw [opensComment, Bool.and_eq_true, beq_iff_eq] at hp
  rw [ht, Option.map_some, hp.1]

theorem kind_of_closesComment {i start : Nat} (h : placeFrom? closesComment start ts = some i) :
    ts[i]?.map Token.kind = some .text := by
  obtain ⟨t, ht, hp, -⟩ := placeFrom?_some h
  rw [closesComment, Bool.and_eq_true, beq_iff_eq] at hp
  rw [ht, Option.map_some, hp.1]

theorem kind_of_endsAcross {i start : Nat} (h : placeFrom? endsAcross start ts = some i) :
    ts[i]?.map Token.kind = some .inline := by
  obtain ⟨t, ht, hp, -⟩ := placeFrom?_some h
  rw [endsAcross, Bool.and_eq_true, beq_iff_eq] at hp
  rw [ht, Option.map_some, hp.1]

theorem holdsAt_cut (hQ : Lasting Q) {i : Nat} (cut : Token → String)
    (hk : ts[i]?.map Token.kind = some .text) (h : HoldsAt Q parent? ts) :
    HoldsAt Q parent? (ts.modify i fun t => { t with content := cut t }) :=
  h.edit hQ (EditedTo.modify fun t ht => .content t (cut t) (.inl (by simpa [ht] using hk)))

theorem holdsAt_closeUpOnce? (hQ : Lasting Q) (hc : closeUpOnce? ts = some us)
    (h : HoldsAt Q parent? ts) : HoldsAt Q parent? us := by
  simp only [closeUpOnce?, Option.bind_eq_bind, Option.bind_eq_some_iff, Option.pure_def,
    Option.some.injEq] at hc
  obtain ⟨i, hi, j, hj, rfl⟩ := hc
  have hhead := holdsAt_cut hQ (fun t => headOf (readable t)) (kind_of_opensComment hi) h
  refine (holdsAt_cut hQ _ ?_ hhead).within hQ (i + 1) j
  rw [map_kind_getElem?_modify fun t => by rfl]
  exact kind_of_closesComment hj

theorem holdsAt_closeUp (hQ : Lasting Q) (h : HoldsAt Q parent? ts) :
    HoldsAt Q parent? (closeUp ts) := by
  have hsteps (steps : Nat) : ∀ ts, HoldsAt Q parent? ts →
      HoldsAt Q parent? (closeUpIn steps ts) := by
    induction steps with
    | zero => exact fun _ h => h
    | succ steps ih =>
      intro ts h
      rw [closeUpIn]
      split
      · rename_i rest hrest
        exact ih rest (holdsAt_closeUpOnce? hQ hrest h)
      · exact h
  exact hsteps _ ts h

/-- Closing up changes the content and the children of a token and nothing else. -/
theorem closeUpToken_eq (t : Token) : closeUpToken t
    = { t with content := (closeUpToken t).content, children := (closeUpToken t).children } := by
  unfold closeUpToken
  split
  · cases t; rfl
  · split
    · rfl
    · cases t; rfl

theorem kind_closeUpToken (t : Token) : (closeUpToken t).kind = t.kind := by
  rw [closeUpToken_eq]

theorem holdsBelow_closeUpToken (hQ : Lasting Q) {t : Token} (h : t.HoldsBelow Q) :
    (closeUpToken t).HoldsBelow Q := by
  unfold closeUpToken
  split
  · exact h
  · rename_i ts hts
    split
    · refine Token.holdsBelow_iff.mpr ?_
      intro cs hcs
      cases hcs
      exact holdsAt_closeUp hQ (Token.holdsBelow_iff.mp h ts hts)
    · exact h

/-- The comments of one block are closed up. -/
theorem holdsAt_closeUpBlock (hQ : Lasting Q) {i : Nat} (hk : ts[i]?.map Token.kind = some .inline)
    (h : HoldsAt Q parent? ts) : HoldsAt Q parent? (ts.modify i closeUpToken) := by
  rw [funext closeUpToken_eq]
  refine h.modify hQ (.inr hk) ?_
  intro t ht
  rw [← closeUpToken_eq]
  exact holdsBelow_closeUpToken hQ ht

/-! ## One end of a comment -/

theorem holdsAt_childrenBefore (hQ : Lasting Q) (h : HoldsAt Q parent? ts) :
    HoldsAt Q parent? (childrenBefore ts) := by
  unfold childrenBefore
  split
  · exact h
  · rename_i i hi
    dsimp only
    obtain ⟨n, hn⟩ := Text.exists_dropEndWhile_eq_take showsNothing
      ((ts.modify i fun t => { t with content := trimmedEnd (headOf (readable t)) }).take (i + 1))
    rw [hn, List.take_take]
    exact (holdsAt_cut hQ _ (kind_of_opensComment hi) h).before hQ _

theorem holdsAt_childrenAfter (hQ : Lasting Q) (h : HoldsAt Q parent? ts) :
    HoldsAt Q parent? (childrenAfter ts) := by
  unfold childrenAfter
  split
  · exact h
  · rename_i i hi
    dsimp only
    rw [List.dropWhile_eq_drop_findIdx_not, List.drop_drop]
    exact (holdsAt_cut hQ _ (kind_of_closesComment hi) h).after hQ _

/-! ## Several blocks -/

/-- A block's text is cut at one end, unless nothing stays of it. -/
theorem holdsAt_cutEnd (hQ : Lasting Q) (cut : Token → Token) {content : String}
    {recut : List Token → List Token}
    (hcut : ∀ t, cut t =
      if content.isEmpty then t else { t with content, children := t.children.map recut })
    (hr : ∀ {parent? ts}, HoldsAt Q parent? ts → HoldsAt Q parent? (recut ts))
    {i : Nat} (hk : ts[i]?.map Token.kind = some .inline) (h : HoldsAt Q parent? ts) :
    HoldsAt Q parent? (ts.modify i cut) := by
  by_cases hc : content.isEmpty
  · have hid : cut = id := by funext t; rw [hcut, if_pos hc]; rfl
    rwa [hid, List.modify_id]
  · have hchange : cut = fun t => { t with content, children := t.children.map recut } := by
      funext t; rw [hcut, if_neg hc]
    rw [hchange]
    refine h.modify hQ (.inr hk) fun t ht => Token.holdsBelow_iff.mpr fun cs hcs => ?_
    obtain ⟨us, hus, rfl⟩ := Option.map_eq_some_iff.mp hcs
    exact hr (Token.holdsBelow_iff.mp ht us hus)

theorem kind_cutTail (tail : String) (t : Token) : (cutTail tail t).kind = t.kind := by
  unfold cutTail
  split <;> rfl

theorem nesting_cutTail (tail : String) (t : Token) : (cutTail tail t).nesting = t.nesting := by
  unfold cutTail
  split <;> rfl

theorem nesting_cutHead (head : String) (t : Token) : (cutHead head t).nesting = t.nesting := by
  unfold cutHead
  split <;> rfl

theorem pairsFrom_congr : ∀ {i : Nat} {unanswered : List Nat} {ts us : List Token},
    us.map Token.nesting = ts.map Token.nesting →
      pairsFrom i unanswered us = pairsFrom i unanswered ts
  | _, _, [], us, h => by rw [List.map_eq_nil_iff.mp h]
  | i, unanswered, t :: ts, us, h => by
    obtain ⟨u, us, rfl, hu, hus⟩ := List.map_eq_cons_iff.mp h
    simp only [pairsFrom, hu, pairsFrom_congr hus]

theorem holdsAt_takeOutAcross (hQ : Lasting Q) {i : Nat} (text : String)
    (hk : ts[i]?.map Token.kind = some .inline) (h : HoldsAt Q parent? ts) :
    HoldsAt Q parent? (takeOutAcross ts i text).1 := by
  unfold takeOutAcross
  split
  · exact h
  · rename_i j hj
    dsimp only
    generalize trimmedEnd (headOf text) = head
    generalize trimmedStart ((ts[j]?.map fun t => tailOf (readable t)).getD "") = tail
    have htail := holdsAt_cutEnd hQ (cutTail tail) (fun _ => rfl) (holdsAt_childrenAfter hQ)
      (kind_of_endsAcross hj) h
    have hcut := holdsAt_cutEnd hQ (cutHead head) (fun _ => rfl) (holdsAt_childrenBefore hQ)
      (by rwa [map_kind_getElem?_modify (kind_cutTail tail)]) htail (i := i)
    -- Cutting leaves every nesting, so the partners are those of the level before.
    have hpairs : pairs ((ts.modify j (cutTail tail)).modify i (cutHead head)) = pairs ts :=
      pairsFrom_congr ((map_modify_eq (nesting_cutHead head) i _).trans
        (map_modify_eq (nesting_cutTail tail) j ts))
    rw [← hpairs]
    exact hcut.within hQ _ _

/-! ## One visit, one level, all levels -/

theorem holdsAt_visit (hQ : Lasting Q) (i : Nat) (h : HoldsAt Q parent? ts) :
    HoldsAt Q parent? (visit ts i).1 := by
  unfold visit
  split
  · exact h
  · rename_i t ht
    split
    · rename_i hcond
      have hk : ts[i]?.map Token.kind = some .inline := by rw [ht, Option.map_some, hcond.1]
      dsimp only
      rw [set_eq_modify closeUpToken ht]
      have hclosed := holdsAt_closeUpBlock hQ hk h
      have hkc : (ts.modify i closeUpToken)[i]?.map Token.kind = some .inline := by
        rwa [map_kind_getElem?_modify kind_closeUpToken]
      split
      · exact hclosed.block hQ hkc
      · split
        · exact holdsAt_takeOutAcross hQ _ hkc hclosed
        · exact hclosed
    · exact h

theorem holdsAt_removeFromLevel (hQ : Lasting Q) (h : HoldsAt Q parent? ts) :
    HoldsAt Q parent? (removeFromLevel ts) := by
  have hsteps (steps : Nat) : ∀ i ts, HoldsAt Q parent? ts →
      HoldsAt Q parent? (levelFrom steps i ts) := by
    induction steps with
    | zero => exact fun _ _ h => h
    | succ steps ih =>
      intro i ts h
      rw [levelFrom]
      exact ih _ _ (holdsAt_visit hQ i h)
  exact hsteps _ _ ts h

theorem holdsAt_removeTo (hQ : Lasting Q) (depth : Nat) :
    ∀ {parent? ts}, HoldsAt Q parent? ts → HoldsAt Q parent? (removeTo depth ts) := by
  induction depth with
  | zero => exact fun h => holdsAt_removeFromLevel hQ h
  | succ depth ih =>
    intro parent? ts h
    have hlevel := holdsAt_removeFromLevel hQ h
    rw [removeTo]
    refine ⟨hQ.blind (map_childless_children _ _) hlevel.1, holdBelow_iff.mpr ?_⟩
    intro u hu
    obtain ⟨t, ht, rfl⟩ := List.mem_map.mp hu
    refine Token.holdsBelow_iff.mpr ?_
    intro cs hcs
    obtain ⟨us, hus, rfl⟩ := Option.map_eq_some_iff.mp hcs
    exact ih (Token.holdsBelow_iff.mp (holdBelow_iff.mp hlevel.2 t ht) us hus)

/-- **What lasts holds of every level when the comments are gone.** -/
theorem everyLevel_removeAll (hQ : Lasting Q) (h : EveryLevel Q ts) :
    EveryLevel Q (removeAll ts) := holdsAt_removeTo hQ _ h

end Comment

end MarkdownPreview
