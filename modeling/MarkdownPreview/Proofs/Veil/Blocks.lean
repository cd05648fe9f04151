import MarkdownPreview.Heading.Anchor
import MarkdownPreview.Proofs.Veil.Lines

/-!
# Documents whose comments differ

Trees that are alike become documents that are alike. The rule of headings reads the text of a
heading with its comments, so it matters whether the titles of both documents are the same
(`SectionsLike`); then the headings get the same anchors.
-/

set_option autoImplicit false

namespace MarkdownPreview

open Comment Text

variable {hides : List Char → List Char → Prop} {place : Nat → Nat → Prop}
  {calm : List Markdown.Node → List Markdown.Node → Prop} {titled : Prop} {xs ys : List Char}
  {t u : Token} {ts us ts' us' : List Token}

/-! ## Sections -/

/-- Neither the text of a block nor the start of a heading. -/
def Token.Plain (t : Token) : Prop := t.kind ≠ .inline ∧ t.kind ≠ .opening .heading

/-- Documents that are alike, and in which headings have the same titles if they are `titled`. -/
inductive SectionsLike (hides : List Char → List Char → Prop) (titled : Prop) :
    List Token → List Token → Prop
  | nil : SectionsLike hides titled [] []
  | cons {t u : Token} {ts us : List Token} (htu : BlockLike hides t u)
    (hk : t.kind ≠ .opening .heading) (h : SectionsLike hides titled ts us) :
    SectionsLike hides titled (t :: ts) (u :: us)
  | heading {t u : Token} {x y : String} {cs ds ts us : List Token} (htu : BlockLike hides t u)
    (hline : BlockLike hides (Token.inline x cs) (Token.inline y ds))
    (htitle : titled → Anchor.title cs = Anchor.title ds) (h : SectionsLike hides titled ts us) :
    SectionsLike hides titled (t :: Token.inline x cs :: ts) (u :: Token.inline y ds :: us)

theorem Token.plain_of_opening {el : Element} (hel : el ≠ .heading) (hk : t.kind = .opening el) :
    t.Plain := by
  simp [Token.Plain, hk, hel]

theorem Token.plain_of_closing {el : Element} (hk : t.kind = .closing el) : t.Plain := by
  simp [Token.Plain, hk]

namespace SectionsLike

theorem append (h : SectionsLike hides titled ts us) (h' : SectionsLike hides titled ts' us') :
    SectionsLike hides titled (ts ++ ts') (us ++ us') := by
  induction h with
  | nil => exact h'
  | cons htu hk _ ih => exact .cons htu hk ih
  | heading htu hline htitle _ ih => exact .heading htu hline htitle ih

theorem documentLike (h : SectionsLike hides titled ts us) : DocumentLike hides ts us := by
  induction h with
  | nil => exact .nil
  | cons htu _ _ ih => exact .cons htu ih
  | heading htu hline _ _ ih => exact .cons htu (.cons hline ih)

/-- A token that is the same in both documents. -/
theorem same (ht : t.Plain) (h : SectionsLike hides titled ts us) :
    SectionsLike hides titled (t :: ts) (t :: us) := .cons (.refl ht.1) ht.2 h

theorem enclose {o c : Token} (ho : o.Plain) (hc : c.Plain) (h : SectionsLike hides titled ts us) :
    SectionsLike hides titled (o :: (ts ++ [c])) (o :: (us ++ [c])) :=
  .same ho (h.append (.same hc .nil))

end SectionsLike

/-! ## Anchors -/

theorem BlockLike.attrs_eq (h : BlockLike hides t u) : t.attrs = u.attrs := by
  cases h <;> rfl

theorem isSelected_eq (s : Anchor.Settings) (h : BlockLike hides t u) :
    Anchor.isSelected s t = Anchor.isSelected s u := by
  cases h <;> rfl

theorem blockLike_withId (s : Anchor.Settings) (id : String) (h : BlockLike hides t u)
    (hk : t.kind ≠ .inline) : BlockLike hides (Anchor.withId s t id) (Anchor.withId s u id) := by
  cases h with
  | plain markup hk =>
    unfold Anchor.withId
    split
    · exact .plain markup hk
    · exact .plain markup hk
  | line => exact absurd rfl hk

theorem addAll_unselected {s : Anchor.Settings} (h : Anchor.isSelected s t = false)
    (ts : List Token) (taken : Slug.Registry) :
    (Anchor.addAll s (t :: ts) taken).1 = t :: (Anchor.addAll s ts taken).1 := by
  rw [Anchor.addAll, h]
  rfl

theorem addAll_selected {s : Anchor.Settings} (h : Anchor.isSelected s t = true)
    (ts : List Token) (taken : Slug.Registry) :
    (Anchor.addAll s (t :: ts) taken).1 = match t.attrs.get? "id" with
      | some id => t :: (Anchor.addAll s ts (taken.reserve id)).1
      | none =>
        let named := taken.unique (s.slug (Anchor.title ((ts.head?.map Token.inner).getD [])))
        Anchor.withId s t named.1 :: (Anchor.addAll s ts named.2).1 := by
  rw [Anchor.addAll, if_pos h]
  cases t.attrs.get? "id" <;> rfl

theorem isSelected_of_kind_ne (s : Anchor.Settings) (hk : t.kind ≠ .opening .heading) :
    Anchor.isSelected s t = false := by
  simp [Anchor.isSelected, hk]

/-- **Headings with the same titles get the same anchors.** -/
theorem documentLike_addAll (s : Anchor.Settings) (ht : titled)
    (h : SectionsLike hides titled ts us) : ∀ taken,
      DocumentLike hides (Anchor.addAll s ts taken).1 (Anchor.addAll s us taken).1 := by
  induction h with
  | nil => exact fun _ => .nil
  | @cons t u ts us htu hk _ ih =>
    intro taken
    have hsel := isSelected_of_kind_ne s hk
    rw [addAll_unselected hsel, addAll_unselected (isSelected_eq s htu ▸ hsel)]
    exact .cons htu (ih taken)
  | @heading t u x y cs ds ts us htu hline htitle _ ih =>
    intro taken
    have hrest (taken : Slug.Registry) : DocumentLike hides
        (Anchor.addAll s (Token.inline x cs :: ts) taken).1
        (Anchor.addAll s (Token.inline y ds :: us) taken).1 := by
      have hsel := isSelected_of_kind_ne s (t := Token.inline x cs) (by simp [Token.inline])
      rw [addAll_unselected hsel, addAll_unselected (isSelected_eq s hline ▸ hsel)]
      exact .cons hline (ih taken)
    cases hsel : Anchor.isSelected s t with
    | true =>
      -- The names taken so far go along, so a title that differs would change all later anchors.
      have hk : t.kind ≠ .inline := by
        intro hk
        simp [Anchor.isSelected, hk] at hsel
      rw [addAll_selected hsel, addAll_selected (isSelected_eq s htu ▸ hsel), ← htu.attrs_eq]
      cases t.attrs.get? "id" with
      | some id => exact .cons htu (hrest _)
      | none =>
        have htitle : Anchor.title (((Token.inline x cs :: ts).head?.map Token.inner).getD [])
            = Anchor.title (((Token.inline y ds :: us).head?.map Token.inner).getD []) :=
          htitle ht
        simp only [htitle]
        exact .cons (blockLike_withId s _ htu hk) (hrest _)
    | false =>
      have hsel' : Anchor.isSelected s u = false := by rw [← isSelected_eq s htu, hsel]
      rw [addAll_unselected hsel, addAll_unselected hsel']
      exact .cons htu (hrest taken)

namespace Markdown

/-! ## Superscripts -/

theorem levelLike_plainText (h : Alike hides xs ys) :
    LevelLike hides (plainText xs) (plainText ys) := by
  rw [plainText, plainText, h.isEmpty_eq]
  split
  · exact .nil
  · exact .cons (leafLike_text h) .nil

theorem levelLike_raiseText {x y : String} (hc : Caretless hides) (hb : SameBlanks hides)
    (h : AlikeText hides x y) : LevelLike hides (raiseText x) (raiseText y) := by
  have hpieces := (sees_raised hc hb).pieces h
  refine List.rel_append (levelLike_plainText hpieces.first) (List.rel_flatMap hpieces.rest ?_)
  intro a b hab
  have hraised : LevelLike hides (raisedTokens a.1) (raisedTokens b.1) :=
    .cons (.same (by simp [Token.spanOpening]))
      (.cons (leafLike_text hab.1) (.cons (.same (by simp [Token.spanClosing])) .nil))
  exact List.rel_append hraised (levelLike_plainText hab.2)

theorem levelLike_raiseAll (hc : Caretless hides) (hb : SameBlanks hides)
    (h : LevelLike hides ts us) : LevelLike hides (raiseAll ts) (raiseAll us) := by
  refine List.rel_flatMap h ?_
  intro t u htu
  have hcaret : (t.kind = .text ∧ '^' ∈ t.content.toList)
      ↔ (u.kind = .text ∧ '^' ∈ u.content.toList) := by
    rw [htu.kind_eq, htu.content.mem_iff hc]
  dsimp only
  by_cases hsplit : t.kind = .text ∧ '^' ∈ t.content.toList
  · rw [if_pos hsplit, if_pos (hcaret.mp hsplit)]
    exact levelLike_raiseText hc hb htu.content
  · rw [if_neg hsplit, if_neg fun hu => hsplit (hcaret.mpr hu)]
    exact .cons htu .nil

/-! ## Text of a block -/

theorem stripContinuation_alike (depth : Nat) (h : Alike hides xs ys) :
    Alike hides (stripContinuation depth xs) (stripContinuation depth ys) := by
  induction depth generalizing xs ys with
  | zero => exact h.dropWhile (by decide)
  | succ depth ih =>
    have hrest := h.dropWhile (p := isIndent) (by decide)
    rw [stripContinuation, stripContinuation]
    rcases hrest.bracket_cases with ⟨us, vs, hx, hy, huv⟩ | ⟨hx, hy⟩
    · rw [hx, hy]
      exact ih huv
    · split
      · rename_i hus
        exact absurd hus (hx _)
      · exact hrest

theorem stripContinuations_alike (hl : OneLine hides) (depth : Nat) (h : Alike hides xs ys) :
    Alike hides (stripContinuations depth xs) (stripContinuations depth ys) := by
  have hlines := h.lines hl
  rw [stripContinuations, stripContinuations]
  generalize lines xs = us at hlines ⊢
  generalize lines ys = vs at hlines ⊢
  cases hlines with
  | nil => exact .nil
  | cons hfirst hrest =>
    exact Alike.joinLines
      (.cons hfirst (List.rel_map (fun _ _ h => stripContinuation_alike depth h) hrest))

variable {s s' : Setting} {ns ns' : List Node}

theorem spanned?_rel (hs : SettingLike hides place s s')
    (hns : NodesLike place hides calm ns ns') :
    Option.Rel (Alike hides) (s.spanned? ns) (s'.spanned? ns') := by
  have hextent {a b : Option Node} (h : Option.Rel (NodeLike place hides calm) a b) :
      ExtentLike place (a.bind Node.extent?) (b.bind Node.extent?) := by
    cases h with
    | none => exact .none
    | some h => exact h.extent
  unfold Setting.spanned?
  rcases cases_of_rel (hextent (Veil.head?_rel hns.forall₂)) with
    ⟨hx, hy⟩ | ⟨first, first', hx, hy, hfirst⟩
  · rw [hx, hy]
    exact .none
  · rw [hx, hy]
    rcases cases_of_rel (hextent (Veil.getLast?_rel hns.forall₂)) with
      ⟨hx, hy⟩ | ⟨last, last', hx, hy, hlast⟩
    · rw [hx, hy]
      exact .none
    · rw [hx, hy]
      exact hs.sight hfirst.1 hlast.2

/-- What has to hold where superscripts are read. -/
def Raisable (hides : List Char → List Char → Prop) (superscript : Bool) : Prop :=
  superscript = true → Caretless hides ∧ SameBlanks hides

theorem levelLike_textToken (hl : OneLine hides) (hs : SettingLike hides place s s')
    (hr : Raisable hides s.superscript) (depth : Nat) (hns : NodesLike place hides calm ns ns') :
    LevelLike hides (textToken s depth ns).inner (textToken s' depth ns').inner := by
  have htokens := levelLike_inlineTokens hl hs hns
  show LevelLike hides (if s.superscript then raiseAll (inlineTokens s ns) else inlineTokens s ns)
    (if s'.superscript then raiseAll (inlineTokens s' ns') else inlineTokens s' ns')
  rw [← hs.superscript]
  split
  · rename_i hsup
    exact levelLike_raiseAll (hr hsup).1 (hr hsup).2 htokens
  · exact htokens

theorem blockLike_textToken (hl : OneLine hides) (hs : SettingLike hides place s s')
    (hr : Raisable hides s.superscript) (depth : Nat) (hns : NodesLike place hides calm ns ns') :
    BlockLike hides (textToken s depth ns) (textToken s' depth ns') := by
  refine .line ?_ (levelLike_textToken hl hs hr depth hns)
  rcases cases_of_rel (spanned?_rel hs hns) with ⟨hx, hy⟩ | ⟨us, vs, hx, hy, huv⟩
  · rw [hx, hy]
  · rw [hx, hy, AlikeText, String.toList_ofList, String.toList_ofList]
    exact stripContinuations_alike hl depth huv

/-! ## Blocks -/

/-- What it takes for two trees to become documents that are alike: sources that are seen alike,
comments that raised runs pass by, and the same titles of headings whose texts are calm. -/
structure SourceLike (hides : List Char → List Char → Prop) (place : Nat → Nat → Prop)
    (calm : List Node → List Node → Prop) (titled : Prop) (s s' : Setting) : Prop where
  oneLine : OneLine hides
  setting : SettingLike hides place s s'
  raisable : Raisable hides s.superscript
  titles : ∀ {ns ns'}, calm ns ns' → titled → ∀ depth,
    Anchor.title (textToken s depth ns).inner = Anchor.title (textToken s' depth ns').inner

variable {n n' : Node} {e e' : Option Extent} (hd : SourceLike hides place calm titled s s')

include hd

theorem SourceLike.textToken (depth : Nat) (hns : NodesLike place hides calm ns ns') :
    BlockLike hides (textToken s depth ns) (textToken s' depth ns') :=
  blockLike_textToken hd.oneLine hd.setting hd.raisable depth hns

/-- The text of a block between its opening and its closing token. -/
theorem SourceLike.framed {o c : Token} (ho : o.Plain) (hc : c.Plain) (depth : Nat)
    (hns : NodesLike place hides calm ns ns') (h : SectionsLike hides titled ts us) :
    SectionsLike hides titled (o :: Markdown.textToken s depth ns :: c :: ts)
      (o :: Markdown.textToken s' depth ns' :: c :: us) :=
  .same ho (.cons (hd.textToken depth hns) (by simp [Markdown.textToken, Token.inline])
    (.same hc h))

theorem sections_paragraph (depth : Nat) (hidden : Bool) (hns : NodesLike place hides calm ns ns') :
    SectionsLike hides titled (paragraph s depth hidden ns) (paragraph s' depth hidden ns') :=
  hd.framed (Token.plain_of_opening (by simp) rfl) (Token.plain_of_closing rfl) depth
    hns .nil

theorem sections_headingTokens (depth level : Nat) (hns : NodesLike place hides calm ns ns')
    (hc : calm ns ns') : SectionsLike hides titled (headingTokens s depth level ns)
      (headingTokens s' depth level ns') :=
  .heading (.refl (by simp [opening, Token.ofBlock])) (hd.textToken depth hns)
    (fun ht => hd.titles hc ht depth) (.same (Token.plain_of_closing rfl) .nil)

omit hd in
theorem fenceMarks?_eq (h : Alike hides xs ys) : fenceMarks? xs = fenceMarks? ys := by
  have htrim : Alike hides (trimStart xs) (trimStart ys) := h.dropWhile (by decide)
  unfold fenceMarks?
  generalize trimStart xs = xs at htrim ⊢
  generalize trimStart ys = ys at htrim ⊢
  -- A comment among the first three characters is none of the marks of a fence.
  cases htrim with
  | nil => rfl
  | comment => simp
  | cons a h =>
    cases h with
    | nil => rfl
    | comment => grind
    | cons b h =>
      cases h with
      | nil => rfl
      | comment => grind
      | @cons c us vs h =>
        by_cases hc : c = '<'
        · grind
        · have hrest : us.takeWhile (· == c) = vs.takeWhile (· == c) :=
            h.takeWhile_eq (by simpa using Ne.symm hc)
          grind

theorem codeToken_eq (he : ExtentLike place e e') (value : String) (lang? rest? : Option String) :
    codeToken s e value lang? rest? = codeToken s' e' value lang? rest? := by
  unfold codeToken
  rw [fenceMarks?_eq (hd.setting.slice he)]

theorem sections_definitionTokens (he : ExtentLike place e e') (url : String) :
    SectionsLike hides titled (definitionTokens s e url) (definitionTokens s' e' url) := by
  have hliteral := hd.setting.slice he
  have hline : BlockLike hides
      (Token.inline (String.ofList (s.slice e)) (addText [] (s.slice e)).reverse)
      (Token.inline (String.ofList (s'.slice e')) (addText [] (s'.slice e')).reverse) := by
    refine .line ?_ (List.rel_reverse (levelLike_addText hd.oneLine hliteral .nil))
    rwa [AlikeText, String.toList_ofList, String.toList_ofList]
  rw [definitionTokens, definitionTokens, hd.setting.acceptance]
  split
  · exact .nil
  · exact .same (Token.plain_of_opening (by simp) rfl)
      (.cons hline (by simp [Token.inline]) (.same (Token.plain_of_closing rfl) .nil))

/-! ## Tables -/

theorem sections_rowCells (depth : Nat) (columns : List Alignment) {el : Element} (tag : String)
    (hel : el ≠ .heading) (hns : NodesLike place hides calm ns ns') : ∀ column,
    SectionsLike hides titled (rowCells s depth columns el tag column ns)
      (rowCells s' depth columns el tag column ns') := by
  have hforall := hns.forall₂
  clear hns
  induction hforall with
  | nil => exact fun _ => .nil
  | @cons n n' ns ns' hn hs ih =>
    intro column
    cases hn with
    | tableCell _ hns =>
      rw [rowCells, rowCells]
      exact hd.framed (Token.plain_of_opening hel rfl) (Token.plain_of_closing rfl) depth hns
        (ih (column + 1))
    | _ => exact ih (column + 1)

theorem sections_rowTokens (depth : Nat) (columns : List Alignment) (isHead : Bool)
    (hns : NodesLike place hides calm ns ns') :
    SectionsLike hides titled (rowTokens s depth columns isHead ns)
      (rowTokens s' depth columns isHead ns') := by
  have hcells {el : Element} (tag : String) (hel : el ≠ .heading) :=
    sections_rowCells hd depth columns tag hel hns 0
  refine .enclose (Token.plain_of_opening (by simp) rfl) (Token.plain_of_closing rfl) ?_
  cases isHead with
  | true => exact hcells "th" (by simp)
  | false => exact hcells "td" (by simp)

theorem sections_tableRows (depth : Nat) (columns : List Alignment)
    (hns : NodesLike place hides calm ns ns') : ∀ row,
    SectionsLike hides titled (tableRows s depth columns row ns)
      (tableRows s' depth columns row ns') := by
  have hforall := hns.forall₂
  clear hns
  induction hforall with
  | nil =>
    intro row
    match row with
    | 0 => exact .nil
    | 1 => exact .nil
    | _ + 2 => exact .nil
  | @cons n n' ns ns' hn hs ih =>
    intro row
    cases hn with
    | tableRow _ hns =>
      have hrow (isHead : Bool) := sections_rowTokens hd depth columns isHead hns
      match row with
      | 0 =>
        rw [tableRows, tableRows]
        exact .append (.enclose (Token.plain_of_opening (by simp) rfl) (Token.plain_of_closing rfl)
          (hrow true)) (ih 1)
      | 1 =>
        rw [tableRows, tableRows]
        exact .append (.same (Token.plain_of_opening (by simp) rfl) (hrow false)) (ih 2)
      | row + 2 =>
        rw [tableRows, tableRows]
        exact .append (hrow false) (ih (row + 3))
    | _ =>
      match row with
      | 0 => exact ih 1
      | 1 => exact ih 2
      | row + 2 => exact ih (row + 3)

theorem sections_tableTokens (depth : Nat) (columns : List Alignment)
    (hns : NodesLike place hides calm ns ns') :
    SectionsLike hides titled (tableTokens s depth columns ns)
      (tableTokens s' depth columns ns') := by
  have hclosing : SectionsLike hides titled
      (if ns.length > 1 then [closing .tbody "tbody"] else [])
      (if ns'.length > 1 then [closing .tbody "tbody"] else []) := by
    rw [hns.forall₂.length_eq]
    split
    · exact .same (Token.plain_of_closing rfl) .nil
    · exact .nil
  exact .append (.append (.same (Token.plain_of_opening (by simp) rfl)
    (sections_tableRows hd depth columns hns 0)) hclosing)
    (.same (Token.plain_of_closing rfl) .nil)

/-! ## Any blocks -/

omit hd in
theorem any_isSpreadItem_eq (hns : NodesLike place hides calm ns ns') :
    ns.any isSpreadItem = ns'.any isSpreadItem := by
  have hitem {n n' : Node} (hn : NodeLike place hides calm n n') :
      isSpreadItem n = isSpreadItem n' := by
    cases hn <;> rfl
  have hforall := hns.forall₂
  clear hns
  induction hforall with
  | nil => rfl
  | cons hn _ ih => rw [List.any_cons, List.any_cons, ih, hitem hn]

omit hd

theorem plain_codeToken (s : Setting) (e : Option Extent) (value : String)
    (lang? rest? : Option String) : (codeToken s e value lang? rest?).Plain := by
  unfold codeToken
  cases fenceMarks? (s.slice e) <;> simp [Token.Plain, Token.ofBlock]

mutual

theorem sections_block (hd : SourceLike hides place calm titled s s') :
    ∀ {n n' : Node}, NodeLike place hides calm n n' → ∀ depth,
      SectionsLike hides titled (block s depth n) (block s' depth n')
  | _, _, .root _ hns, depth => sections_blocks hd hns depth
  | _, _, .paragraph _ hns, depth => sections_paragraph hd depth false hns
  | _, _, .heading _ hns hc, depth => sections_headingTokens hd depth _ hns hc
  | _, _, .blockquote _ hns, depth => by
    rw [block, block]
    exact .enclose (Token.plain_of_opening (by simp) rfl) (Token.plain_of_closing rfl)
      (sections_blocks hd hns (depth + 1))
  | _, _, @NodeLike.list _ _ _ _ _ ordered _ spread _ _ _ hns, depth => by
    rw [block, block, any_isSpreadItem_eq hns]
    cases ordered with
    | true =>
      exact .enclose (Token.plain_of_opening (by simp) rfl) (Token.plain_of_closing rfl)
        (sections_items hd hns depth _)
    | false =>
      exact .enclose (Token.plain_of_opening (by simp) rfl) (Token.plain_of_closing rfl)
        (sections_items hd hns depth _)
  | _, _, .code he, _ => by
    rw [block, block, codeToken_eq hd he]
    exact .same (plain_codeToken _ _ _ _ _) .nil
  | _, _, .html _, _ => by
    rw [block, block]
    exact .same (by simp [Token.Plain, htmlToken, Token.ofBlock]) .nil
  | _, _, .thematicBreak he, _ => by
    rw [block, block]
    exact .cons (.plain _ (by simp [Token.ofBlock])) (by simp [Token.ofBlock]) .nil
  | _, _, .table _ hns, depth => sections_tableTokens hd depth _ hns
  | _, _, .definition he, _ => sections_definitionTokens hd he _
  | _, _, .listItem _ _, _ | _, _, .math _, _ | _, _, .tableRow _ _, _ | _, _, .tableCell _ _, _
  | _, _, .footnoteDefinition _ _, _ | _, _, .text _ _, _ | _, _, .lineBreak _, _
  | _, _, .inlineCode _, _ | _, _, .inlineMath _, _ | _, _, .emphasis _ _, _ | _, _, .strong _ _, _
  | _, _, .delete _ _, _ | _, _, .link _ _, _ | _, _, .linkReference _ _, _ | _, _, .image _, _
  | _, _, .imageReference _, _ => .nil

theorem sections_blocks (hd : SourceLike hides place calm titled s s') :
    ∀ {ns ns' : List Node}, NodesLike place hides calm ns ns' → ∀ depth,
      SectionsLike hides titled (blocks s depth ns) (blocks s' depth ns')
  | _, _, .nil, _ => .nil
  | _, _, .cons hn hns, depth => by
    rw [blocks, blocks]
    exact .append (sections_block hd hn depth) (sections_blocks hd hns depth)

theorem sections_items (hd : SourceLike hides place calm titled s s') :
    ∀ {ns ns' : List Node}, NodesLike place hides calm ns ns' → ∀ depth tight,
      SectionsLike hides titled (items s depth tight ns) (items s' depth tight ns')
  | _, _, .nil, _, _ => .nil
  | _, _, .cons hn hns, depth, tight => by
    have hrest := sections_items hd hns depth tight
    have hblock := sections_block hd hn depth
    cases hn with
    | listItem _ hns =>
      rw [items, items]
      exact .append (.enclose (Token.plain_of_opening (by simp) rfl) (Token.plain_of_closing rfl)
        (sections_itemBlocks hd hns depth tight)) hrest
    | _ => exact .append hblock hrest

theorem sections_itemBlocks (hd : SourceLike hides place calm titled s s') :
    ∀ {ns ns' : List Node}, NodesLike place hides calm ns ns' → ∀ depth tight,
      SectionsLike hides titled (itemBlocks s depth tight ns) (itemBlocks s' depth tight ns')
  | _, _, .nil, _, _ => .nil
  | _, _, .cons hn hns, depth, tight => by
    have hrest := sections_itemBlocks hd hns depth tight
    have hblock := sections_block hd hn depth
    cases hn with
    | paragraph _ hns =>
      rw [itemBlocks, itemBlocks]
      exact .append (sections_paragraph hd depth tight hns) hrest
    | _ => exact .append hblock hrest

end

end Markdown

end MarkdownPreview
