import MarkdownPreview.Proofs.Nesting.Partners
import MarkdownPreview.Proofs.Rules.Run

/-!
# Rules keep levels nested

A level is `Paired` if each token's nesting fits its kind and the level is balanced as a word of
brackets that tells elements apart. Every rule but that of notes keeps that of every level of a
tree, so any sequence of them does (`paired_runRules`). Most of the work is done before: what the
rules do to a level is listed in `Lasting`, and tokens that are taken out are
`balanced_removeWithin` and `balanced_keepPaired`.

The rule of notes only changes levels that are the children of an `inline` token, and is left out.
-/

set_option autoImplicit false

namespace MarkdownPreview

/-- Each token's nesting fits its kind, and every opening token is closed by the closing one of its
kind, in the order of a stack. -/
def Paired : LevelProp := fun _ ts => (∀ t ∈ ts, t.Fits) ∧ Balanced (ts.map Token.bracket)

instance (parent? : Option Kind) (ts : List Token) : Decidable (Paired parent? ts) :=
  inferInstanceAs (Decidable (_ ∧ _))

variable {parent? : Option Kind} {t u : Token} {ts us : List Token}

/-! ## Edits -/

theorem Edit.fits (h : Edit t u) (ht : t.Fits) : u.Fits := by
  cases h with
  | refl => exact ht
  | content content hk => exact ht
  | anchor id hk => exact ht
  | mark hk => exact ht
  | html html hk hw => rfl

theorem Edit.bracket (h : Edit t u) : u.bracket = t.bracket := by
  cases h with
  | refl => rfl
  | content content hk => rfl
  | anchor id hk => rfl
  | mark hk => rfl
  | html html hk hw =>
    have ht : t.bracket = .plain := by
      unfold Token.bracket
      rcases hk with hk | hk | hk <;> rw [hk]
    rw [ht]
    rfl

theorem EditedTo.map_bracket (h : EditedTo ts us) :
    us.map Token.bracket = ts.map Token.bracket := by
  induction h with
  | nil => rfl
  | cons hedit _ ih => rw [List.map_cons, List.map_cons, hedit.bracket, ih]

/-! ## A block that goes -/

theorem take_drop_of_getElem? {i : Nat} (h : ts[i]? = some t) (n : Nat) :
    (ts.drop i).take (n + 1) = t :: (ts.drop (i + 1)).take n := by
  obtain ⟨hlt, rfl⟩ := List.getElem?_eq_some_iff.mp h
  rw [List.drop_eq_getElem_cons hlt, List.take_succ_cons]

theorem exists_of_isAt {i : Nat} {kind : Kind} (h : Comment.isAt ts i kind = true) :
    ∃ t, ts[i]? = some t ∧ t.kind = kind := by
  obtain ⟨t, ht, hkind⟩ := Option.any_eq_true _ _ |>.mp h
  exact ⟨t, ht, beq_iff_eq.mp hkind⟩

theorem Token.bracket_of_kind {e : Element} (h : t.kind = .opening e) :
    t.bracket = .opening e := by
  unfold Token.bracket
  rw [h]

theorem Token.bracket_of_closing {e : Element} (h : t.kind = .closing e) :
    t.bracket = .closing e := by
  unfold Token.bracket
  rw [h]

/-- A balanced level without a balanced stretch is balanced. -/
theorem balanced_cut (hb : Balanced (ts.map Token.bracket)) {start count : Nat}
    (hgone : Balanced (((ts.drop start).take count).map Token.bracket)) :
    Balanced ((ts.take start ++ ts.drop (start + count)).map Token.bracket) := by
  have hsplit : ts.take start ++ (ts.drop start).take count ++ ts.drop (start + count) = ts := by
    rw [List.append_assoc, ← List.drop_drop, List.take_append_drop, List.take_append_drop]
  have hleft := waitingAfter_leaveOut hgone [] ((ts.take start).map Token.bracket)
    ((ts.drop (start + count)).map Token.bracket)
  rw [← List.map_append, ← List.map_append, ← List.map_append, hsplit] at hleft
  rw [Balanced, ← hleft]
  exact hb

/-- The text of a block goes alone, or with the two tokens of its paragraph. -/
theorem balanced_takeOutBlock {i : Nat} (hk : ts[i]?.map Token.kind = some .inline)
    (hb : Balanced (ts.map Token.bracket)) :
    Balanced ((Comment.takeOutBlock ts i).1.map Token.bracket) := by
  obtain ⟨t, ht, hkind⟩ := Option.map_eq_some_iff.mp hk
  have hplain : t.bracket = .plain := by
    unfold Token.bracket
    rw [hkind]
  unfold Comment.takeOutBlock
  split
  rename_i start count hrange
  split
  · exact hb
  · refine balanced_cut hb ?_
    -- What goes are the three tokens of a paragraph, or the one of the text.
    split at hrange
    · rename_i hpar
      cases hrange
      rw [Bool.and_eq_true, Comment.isBefore, Bool.and_eq_true, bne_iff_ne] at hpar
      obtain ⟨⟨hi, hbefore⟩, hafter⟩ := hpar
      obtain ⟨o, ho, hopen⟩ := exists_of_isAt hbefore
      obtain ⟨c, hc, hclose⟩ := exists_of_isAt hafter
      have hnext : i - 1 + 1 = i := Nat.succ_pred_eq_of_ne_zero hi
      rw [take_drop_of_getElem? ho, hnext, take_drop_of_getElem? ht, take_drop_of_getElem? hc,
        List.take_zero, List.map_cons, List.map_cons, List.map_cons, List.map_nil, hplain,
        Token.bracket_of_kind hopen, Token.bracket_of_closing hclose]
      exact Balanced.plain.enclose Element.paragraph
    · cases hrange
      rw [take_drop_of_getElem? ht, List.take_zero, List.map_cons, List.map_nil, hplain]
      exact Balanced.plain

/-! ## Variables and line breaks -/

/-- A raised run that is put together again loses the two tokens that raised it. -/
theorem waitingAfter_rejoinFrom (before : Token) (ts : List Token) (waiting : List Element) :
    waitingAfter waiting ((Variable.rejoinFrom before ts).map Token.bracket)
      = waitingAfter waiting ((before :: ts).map Token.bracket) := by
  induction before, ts using Variable.rejoinFrom.induct generalizing waiting with
  | case1 before up raised down after ts name hname ih =>
    obtain ⟨hb, hu, hr, hd, ha⟩ := Variable.kinds_of_takenApart? hname
    have hplain {t : Token} (h : t.kind = .text) : t.bracket = .plain := by
      unfold Token.bracket
      rw [h]
    have hraised : (Variable.raisedHtml name).bracket = .plain := rfl
    have hcut (t : Token) (content : String) :
        Token.bracket { t with content } = t.bracket := rfl
    rw [Variable.rejoinFrom, hname]
    simp only [List.map_cons, hcut, hplain hb, hplain hr, hplain ha, hraised,
      Token.bracket_of_kind hu, Token.bracket_of_closing hd, waitingAfter_plain,
      waitingAfter_opening, waitingAfter_closing, if_true] at ih ⊢
    exact ih waiting
  | case2 before up raised down after ts hname ih =>
    rw [Variable.rejoinFrom, hname, List.map_cons, List.map_cons, waitingAfter_cons,
      waitingAfter_cons]
    exact Option.bind_congr fun waiting _ => ih waiting
  | case3 before ts hshort =>
    rw [Variable.rejoinFrom]
    exact hshort

theorem balanced_rejoin (hb : Balanced (ts.map Token.bracket)) :
    Balanced ((Variable.rejoin ts).map Token.bracket) := by
  cases ts with
  | nil => exact hb
  | cons t ts =>
    rw [Variable.rejoin, Balanced, waitingAfter_rejoinFrom]
    exact hb

theorem waitingAfter_addLevel : ∀ (ts : List Token) (waiting : List Element),
    waitingAfter waiting ((BlankLines.addLevel ts).map Token.bracket)
      = waitingAfter waiting (ts.map Token.bracket)
  | [], _ => rfl
  | t :: ts, waiting => by
    have hnewline : Token.newline.bracket = .plain := rfl
    rw [BlankLines.addLevel]
    split
    · simp only [List.map_cons, hnewline]
      rw [waitingAfter_cons, waitingAfter_cons]
      refine Option.bind_congr ?_
      intro waiting _
      rw [waitingAfter_plain]
      exact waitingAfter_addLevel ts waiting
    · rw [List.map_cons, List.map_cons, waitingAfter_cons, waitingAfter_cons]
      exact Option.bind_congr fun waiting _ => waitingAfter_addLevel ts waiting

/-! ## Rules -/

theorem Paired.lasting : Lasting Paired where
  blind := by
    intro parent? ts us hchildless ⟨hf, hb⟩
    have hbracket : us.map Token.bracket = ts.map Token.bracket := by
      have h := congrArg (List.map Token.bracket) hchildless
      rwa [List.map_map, List.map_map] at h
    refine ⟨fun u hu => ?_, by rwa [hbracket]⟩
    have hmem : u.childless ∈ ts.map Token.childless := hchildless ▸ List.mem_map_of_mem hu
    obtain ⟨t, ht, htu⟩ := List.mem_map.mp hmem
    have hfits : u.childless.Fits := htu ▸ hf t ht
    exact hfits
  edit he h := ⟨he.forall_mem Edit.fits h.1, by rw [he.map_bracket]; exact h.2⟩
  within start stop h :=
    ⟨fun t ht => h.1 t ((removeWithin_sublist start stop _).subset ht),
      balanced_removeWithin h.1 h.2 start stop⟩
  block hk h :=
    ⟨fun t ht => h.1 t ((takeOutBlock_sublist _ _).subset ht), balanced_takeOutBlock hk h.2⟩
  before := by
    intro parent? ts n ⟨hf, hb⟩
    have htake : ∀ t ∈ ts.take n, t.Fits := fun t ht => hf t (List.mem_of_mem_take ht)
    refine ⟨fun t ht => htake t ((keepPaired_sublist _).subset ht), ?_⟩
    refine balanced_keepPaired [] (ts.drop n) htake ?_
    rwa [List.nil_append, List.take_append_drop]
  after := by
    intro parent? ts n ⟨hf, hb⟩
    have hdrop : ∀ t ∈ ts.drop n, t.Fits := fun t ht => hf t (List.mem_of_mem_drop ht)
    refine ⟨fun t ht => hdrop t ((keepPaired_sublist _).subset ht), ?_⟩
    refine balanced_keepPaired (ts.take n) [] hdrop ?_
    rwa [List.append_nil, List.take_append_drop]
  rejoin h := ⟨forall_mem_rejoin Edit.fits h.1, balanced_rejoin h.2⟩
  spaced := by
    intro parent? ts ⟨hf, hb⟩
    refine ⟨?_, ?_⟩
    · intro t ht
      rcases mem_addLevel ht with ht | rfl
      · exact hf t ht
      · rfl
    · rw [Balanced, waitingAfter_addLevel]
      exact hb

/-- **Any sequence of rules without notes keeps every level nested.** -/
theorem paired_runRules (c : Conditions) {rules : List Rule} (hn : Rule.notes ∉ rules) {d : Draft}
    (h : EveryLevel Paired d.tokens) : EveryLevel Paired (runRules c rules d).tokens :=
  Paired.lasting.runRules c hn h

/-- Two quotes with a comment that starts within the emphasis of one and ends within a link of the
other. -/
def straddled : List Token :=
  let quote (e : Element) (tag text : String) : List Token :=
    [Token.ofBlock (.opening .blockquote) "blockquote" .opening,
      Token.ofBlock (.opening .paragraph) "p" .opening,
      Token.inline text [Token.spanOpening e tag "", Token.text text, Token.spanClosing e tag ""],
      Token.ofBlock (.closing .paragraph) "p" .closing,
      Token.ofBlock (.closing .blockquote) "blockquote" .closing]
  quote .em "em" "one <!-- two" ++ quote .link "a" "three --> four"

/-- A comment that straddles quotes, emphasis and a link leaves all of them nested. -/
theorem paired_straddled : EveryLevel Paired straddled ∧ EveryLevel Paired
    (runRules ⟨false, true⟩ [.comments, .links, .variables, .spacing] ⟨straddled, {}⟩).tokens := by
  have h : EveryLevel Paired straddled := by decide
  exact ⟨h, paired_runRules ⟨false, true⟩ (by decide) h⟩

end MarkdownPreview
