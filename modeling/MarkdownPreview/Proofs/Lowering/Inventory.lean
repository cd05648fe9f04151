import MarkdownPreview.Markdown.Block
import MarkdownPreview.Proofs.Lowering.Line
import MarkdownPreview.Proofs.Nesting.Bracket
import MarkdownPreview.Proofs.Tree.Levels

/-!
# Which tokens a document has

Before any rule has run, the tokens of a document take few forms: those of `BlockToken` on the top
level, beside the `inline` tokens, and those of `LineToken` within an `inline` token. So what holds
of each of these forms holds of every token of a document (`everywhere_tokens`). The forms say what
can be told of their tags, attributes and destinations; contents can be anything.

How the top level is put together is told by `Flow`: an `inline` token comes with the two tokens of
its block around it.
-/

set_option autoImplicit false

namespace MarkdownPreview.Markdown

/-- The elements of the block structure and their tags. -/
def blockTags : List (Element × String) :=
  [(.paragraph, "p"), (.heading, "h1"), (.heading, "h2"), (.heading, "h3"), (.heading, "h4"),
    (.heading, "h5"), (.heading, "h6"), (.blockquote, "blockquote"), (.bulletList, "ul"),
    (.orderedList, "ol"), (.listItem, "li"), (.table, "table"), (.thead, "thead"),
    (.tbody, "tbody"), (.tr, "tr"), (.th, "th"), (.td, "td")]

/-- The elements whose text is an `inline` token. -/
def textElements : List Element := [.paragraph, .heading, .th, .td]

/-- A token of the block structure, other than the text of a block. -/
inductive BlockToken (p : Node → Bool) : Token → Prop
  | opening {e : Element} {tag : String} (attrs : Attrs) (markup : String) (hidden : Bool)
      (h : (e, tag) ∈ blockTags) (ha : ∀ a ∈ attrs, a.1 = "start" ∨ a.1 = "style") :
      BlockToken p { opening e tag with attrs, markup, hidden }
  | closing {e : Element} {tag : String} (markup : String) (hidden : Bool)
      (h : (e, tag) ∈ blockTags) : BlockToken p { closing e tag with markup, hidden }
  | rule (markup : String) : BlockToken p { Token.ofBlock .hr "hr" .selfClosing with markup }
  | code {kind : Kind} (content info markup : String) (h : kind = .fence ∨ kind = .codeBlock) :
      BlockToken p { Token.ofBlock kind "code" .selfClosing with content, info, markup }
  | html (content : String) (h : AllowsHtml p) :
      BlockToken p { Token.ofBlock .htmlBlock "" .selfClosing with content }

/-- A token of running text. -/
inductive LineToken (acceptance : Acceptance) (p : Node → Bool) : Token → Prop
  | text (content : String) : LineToken acceptance p (Token.text content)
  | break {kind : Kind} (h : kind = .softbreak ∨ kind = .hardbreak) :
      LineToken acceptance p (breakToken kind)
  | code (content : String) :
      LineToken acceptance p { kind := .codeInline, tag := "code", content, markup := "`" }
  | html (content : String) (h : AllowsHtml p) :
      LineToken acceptance p { kind := .htmlInline, content }
  | spanOpening {e : Element} {tag : String} (markup : String) (h : (e, tag) ∈ spanTags) :
      LineToken acceptance p (Token.spanOpening e tag markup)
  | spanClosing {e : Element} {tag : String} (markup : String) (h : (e, tag) ∈ spanTags) :
      LineToken acceptance p (Token.spanClosing e tag markup)
  | linkOpening (url : String) (title? : Option String) {markup : String}
      (h : markup = "" → acceptance.admits url = true) :
      LineToken acceptance p (linkOpening url title? markup)
  | linkClosing (markup : String) : LineToken acceptance p (linkClosing markup)
  | picture (url alt : String) (title? : Option String) (h : acceptance.admits url = true) :
      LineToken acceptance p (picture url alt title?)

variable {s : Setting} {acceptance : Acceptance} {p : Node → Bool} {ts us : List Token} {t : Token}

/-! ## Running text -/

theorem LineToken.recut (h : LineToken acceptance p t) (hk : t.kind = .text) (content : String) :
    LineToken acceptance p { t with content } := by
  cases h with
  | text _ => exact .text content
  | «break» h => rcases h with rfl | rfl <;> cases hk
  | code | html | spanOpening | spanClosing | linkOpening | linkClosing | picture => cases hk

theorem lineToken_dropLastSpaces (h : ∀ t ∈ ts, LineToken acceptance p t) :
    ∀ t ∈ dropLastSpaces ts, LineToken acceptance p t := by
  cases ts with
  | nil => exact h
  | cons t ts =>
    rw [List.forall_mem_cons] at h
    rw [dropLastSpaces]
    split
    · rename_i hk
      dsimp only
      split
      · exact h.2
      · exact List.forall_mem_cons.mpr ⟨h.1.recut hk _, h.2⟩
    · exact List.forall_mem_cons.mpr h

theorem lineToken_addChar (c : Char) (h : ∀ t ∈ ts, LineToken acceptance p t) :
    ∀ t ∈ addChar ts c, LineToken acceptance p t := by
  unfold addChar
  split
  · exact List.forall_mem_cons.mpr ⟨.break (.inl rfl), lineToken_dropLastSpaces h⟩
  · split
    · exact h
    · split
      · exact List.forall_mem_singleton.mpr (.text _)
      · rename_i t rest _
        split
        · rename_i hk
          rw [List.forall_mem_cons] at h
          exact List.forall_mem_cons.mpr ⟨h.1.recut hk _, h.2⟩
        · exact List.forall_mem_cons.mpr ⟨.text _, h⟩

theorem lineToken_addText (text : List Char) (h : ∀ t ∈ ts, LineToken acceptance p t) :
    ∀ t ∈ addText ts text, LineToken acceptance p t := by
  rw [addText_eq_foldl]
  induction text generalizing ts with
  | nil => exact h
  | cons c text ih => exact ih (lineToken_addChar c h)

theorem Grows.lineToken {l m : Line} (hg : Grows acceptance p l m)
    (h : ∀ t ∈ l.newest, LineToken acceptance p t) :
    ∀ t ∈ m.newest, LineToken acceptance p t := by
  induction hg with
  | refl => exact h
  | trans _ _ ihl ihm => exact ihm (ihl h)
  | push l text => exact lineToken_addText text h
  | hardBreak l =>
    exact List.forall_mem_cons.mpr ⟨.break (.inr rfl), lineToken_dropLastSpaces h⟩
  | code l content => exact List.forall_mem_cons.mpr ⟨.code content, h⟩
  | html l value hv => exact List.forall_mem_cons.mpr ⟨.html value hv, h⟩
  | picture l url alt title? hu =>
    exact List.forall_mem_cons.mpr ⟨.picture url alt title? hu, h⟩
  | span e tag markup htag _ ih =>
    exact List.forall_mem_cons.mpr ⟨.spanClosing markup htag,
      ih (List.forall_mem_cons.mpr ⟨.spanOpening markup htag, h⟩)⟩
  | link url title? markup hu _ _ ih =>
    exact List.forall_mem_cons.mpr ⟨.linkClosing markup,
      ih (List.forall_mem_cons.mpr ⟨.linkOpening url title? hu, h⟩)⟩

theorem lineToken_raiseText (text : String) :
    ∀ t ∈ raiseText text, LineToken acceptance p t :=
  forall_mem_raiseText .text (.spanOpening "^" (by decide)) (.spanClosing "^" (by decide)) text

theorem IsRun.lineToken (h : IsRun acceptance p ts) :
    ∀ t ∈ ts, LineToken acceptance p t := by
  obtain ⟨l, hg, hts⟩ := h
  have hl : ∀ t ∈ l.newest.reverse, LineToken acceptance p t := fun t ht =>
    hg.lineToken (List.forall_mem_nil _) t (List.mem_reverse.mp ht)
  rcases hts with rfl | rfl
  · exact hl
  · intro t ht
    obtain ⟨u, hu, ht⟩ := List.mem_flatMap.mp ht
    split at ht
    · exact lineToken_raiseText _ t ht
    · rw [List.mem_singleton.mp ht]
      exact hl u hu

/-! ## Blocks -/

/-- Two tokens around an element: the closing one belongs to the opening one in every respect. -/
structure Border (p : Node → Bool) (e : Element) (o c : Token) : Prop where
  opening : BlockToken p o
  closing : BlockToken p c
  kind_opening : o.kind = .opening e
  kind_closing : c.kind = .closing e
  tag_eq : c.tag = o.tag
  hidden_eq : c.hidden = o.hidden

theorem Border.mk' {e : Element} {tag : String} (attrs : Attrs) (markup : String) (hidden : Bool)
    (h : (e, tag) ∈ blockTags) (ha : ∀ a ∈ attrs, a.1 = "start" ∨ a.1 = "style") :
    Border p e { Markdown.opening e tag with attrs, markup, hidden }
      { Markdown.closing e tag with markup, hidden } where
  opening := .opening attrs markup hidden h ha
  closing := .closing markup hidden h
  kind_opening := rfl
  kind_closing := rfl
  tag_eq := rfl
  hidden_eq := rfl

theorem Border.plain {e : Element} {tag : String} (h : (e, tag) ∈ blockTags) :
    Border p e (Markdown.opening e tag) (Markdown.closing e tag) :=
  .mk' [] "" false h (List.forall_mem_nil _)

/-- How the top level of a document is put together. Only in a table that holds something else than
rows may a token of an element stand on its own. -/
inductive Flow (acceptance : Acceptance) (p : Node → Bool) : List Token → Prop
  | nil : Flow acceptance p []
  | append {ts us : List Token} (hts : Flow acceptance p ts)
      (hus : Flow acceptance p us) : Flow acceptance p (ts ++ us)
  | single {t : Token} (h : BlockToken p t) (hn : t.kind.nesting = .selfClosing) :
      Flow acceptance p [t]
  | text {e : Element} {o c : Token} {ts : List Token} (content : String) (he : e ∈ textElements)
      (hb : Border p e o c) (h : IsRun acceptance p ts) :
      Flow acceptance p [o, Token.inline content ts, c]
  | enclose {e : Element} {o c : Token} {ts : List Token} (hb : Border p e o c)
      (hts : Flow acceptance p ts) : Flow acceptance p (o :: ts ++ [c])
  | stray {t : Token} (h : BlockToken p t) (hp : AllowsStray p) : Flow acceptance p [t]

theorem mem_blockTags_tagOfLevel (level : Nat) :
    (Element.heading, tagOfLevel level) ∈ blockTags := by
  unfold tagOfLevel
  split <;> decide

theorem flow_paragraph {ns : List Node} (depth : Nat) (hidden : Bool)
    (h : allOf p ns = true) :
    Flow s.acceptance p (paragraph s depth hidden ns) :=
  .text _ (by decide) (.mk' [] "" hidden (by decide) (List.forall_mem_nil _))
    (isRun_inlineTokens s h)

theorem flow_headingTokens {ns : List Node} (depth level : Nat)
    (h : allOf p ns = true) :
    Flow s.acceptance p (headingTokens s depth level ns) :=
  .text _ (by decide)
    (.mk' [] _ false (mem_blockTags_tagOfLevel level) (List.forall_mem_nil _))
    (isRun_inlineTokens s h)

theorem flow_definitionTokens (extent? : Option Extent) (url : String) :
    Flow s.acceptance p (definitionTokens s extent? url) := by
  unfold definitionTokens
  split
  · exact .nil
  · exact .text _ (by decide) (.plain (by decide)) (isRun_text _ _ _)

theorem flow_rowCells (depth : Nat) (columns : List Alignment) {e : Element} {tag : String}
    (he : e ∈ textElements) (htag : (e, tag) ∈ blockTags) : ∀ {ns : List Node} (column : Nat),
      allOf p ns = true →
      Flow s.acceptance p (rowCells s depth columns e tag column ns)
  | [], _, _ => .nil
  | n :: rest, column, h => by
    rw [allOf, Bool.and_eq_true] at h
    have hrest := flow_rowCells depth columns he htag (column + 1) h.2
    unfold rowCells
    split
    · cases ‹_ = _›
    · rename_i heq
      cases heq
      have hn := h.1
      rw [Node.all, Bool.and_eq_true] at hn
      refine .append (.text _ he (.mk' _ "" false htag ?_) (isRun_inlineTokens s hn.2)) hrest
      intro a ha
      obtain ⟨v, -, rfl⟩ := Option.map_eq_some_iff.mp (Option.mem_toList.mp ha)
      exact .inr rfl
    · rename_i heq
      cases heq
      exact hrest

theorem flow_rowTokens {ns : List Node} (depth : Nat) (columns : List Alignment) (isHead : Bool)
    (h : allOf p ns = true) :
    Flow s.acceptance p (rowTokens s depth columns isHead ns) := by
  unfold rowTokens
  refine .enclose (.plain (by decide)) ?_
  split
  · exact flow_rowCells depth columns (by decide) (by decide) 0 h
  · exact flow_rowCells depth columns (by decide) (by decide) 0 h

theorem flow_rowTokens_of_eq {n : Node} {e : Option Extent} {ns : List Node} (depth : Nat)
    (columns : List Alignment) (isHead : Bool) (h : n.all p = true) (hn : n = .tableRow e ns) :
    Flow s.acceptance p (rowTokens s depth columns isHead ns) := by
  rw [hn, Node.all, Bool.and_eq_true] at h
  exact flow_rowTokens depth columns isHead h.2

/-- The rows of the body of a table after its first one. -/
theorem flow_bodyRows (depth : Nat) (columns : List Alignment) : ∀ {ns : List Node} (row : Nat),
    allOf p ns = true → Flow s.acceptance p (tableRows s depth columns (row + 2) ns)
  | [], row, _ => .nil
  | n :: rest, row, h => by
    rw [allOf, Bool.and_eq_true] at h
    have hrest := flow_bodyRows depth columns (row + 1) h.2
    cases n with
    | tableRow e ns => exact .append (flow_rowTokens_of_eq depth columns false h.1 rfl) hrest
    | _ => exact hrest

/-- Rows of a table, the tokens of its body perhaps without their partners. -/
theorem flow_tableRows (depth : Nat) (columns : List Alignment) (hp : AllowsStray p) :
    ∀ {ns : List Node} (row : Nat),
      allOf p ns = true → Flow s.acceptance p (tableRows s depth columns row ns)
  | [], row, _ => by
    cases row <;> exact .nil
  | n :: rest, row, h => by
    rw [allOf, Bool.and_eq_true] at h
    have hrest := fun row => flow_tableRows depth columns hp row h.2
    -- A head, the first row of the body, which opens it, a later row, and something else.
    unfold tableRows
    split
    · cases ‹_ = _›
    · rename_i heq
      cases heq
      have hrow := flow_rowTokens_of_eq (s := s) depth columns true h.1 rfl
      exact .append (.enclose (.plain (by decide)) hrow) (hrest 1)
    · rename_i heq
      cases heq
      have hbody : BlockToken p (Markdown.opening .tbody "tbody") :=
        (Border.plain (by decide)).opening
      have hrow := flow_rowTokens_of_eq (s := s) depth columns false h.1 rfl
      exact .append (.append (.stray hbody hp) hrow) (hrest 2)
    · rename_i heq
      cases heq
      exact .append (flow_rowTokens_of_eq depth columns false h.1 rfl) (hrest _)
    · rename_i heq
      cases heq
      exact hrest _

/-- The rows of a table and the end of its body, if nothing but rows is in it: the first row is its
head, and the others are its body, if there are any. -/
theorem flow_rows (depth : Nat) (columns : List Alignment) : ∀ {ns : List Node},
    ns.all Node.isRow = true → allOf p ns = true →
      Flow s.acceptance p (tableRows s depth columns 0 ns
        ++ if ns.length > 1 then [Markdown.closing .tbody "tbody"] else [])
  | [], _, _ => .nil
  | first :: rest, hrows, h => by
    have hrow {n : Node} (hn : n.isRow = true) : ∃ e ns, n = .tableRow e ns := by
      cases n with
      | tableRow e ns => exact ⟨e, ns, rfl⟩
      | _ => cases hn
    rw [List.all_cons, Bool.and_eq_true] at hrows
    rw [allOf, Bool.and_eq_true] at h
    obtain ⟨e, cells, rfl⟩ := hrow hrows.1
    rw [tableRows, List.append_assoc]
    refine .append (.enclose (.plain (by decide))
      (flow_rowTokens_of_eq depth columns true h.1 rfl)) ?_
    cases rest with
    | nil => exact .nil
    | cons second rest =>
      have h' := h.2
      rw [List.all_cons, Bool.and_eq_true] at hrows
      rw [allOf, Bool.and_eq_true] at h'
      obtain ⟨e', cells', rfl⟩ := hrow hrows.2.1
      rw [tableRows]
      exact .enclose (.plain (by decide)) (.append
        (flow_rowTokens_of_eq depth columns false h'.1 rfl)
        (flow_bodyRows depth columns 0 h'.2))

theorem flow_tableTokens {extent? : Option Extent} {ns : List Node} (depth : Nat)
    (columns : List Alignment) (hp : p (.table extent? columns ns) = true) (h : allOf p ns = true) :
    Flow s.acceptance p (tableTokens s depth columns ns) := by
  have hinner : Flow s.acceptance p (tableRows s depth columns 0 ns
      ++ if ns.length > 1 then [Markdown.closing .tbody "tbody"] else []) := by
    cases hrows : ns.all Node.isRow with
    | true => exact flow_rows depth columns hrows h
    | false =>
      have hstray : AllowsStray p := ⟨extent?, columns, ns, hp, hrows⟩
      refine .append (flow_tableRows depth columns hstray 0 h) ?_
      split
      · exact .stray (Border.plain (e := .tbody) (by decide)).closing hstray
      · exact .nil
  exact .enclose (.plain (by decide)) hinner

mutual

theorem block_flow (depth : Nat) : ∀ {n : Node}, n.all p = true →
    Flow s.acceptance p (block s depth n)
  | .root _ ns, h => by
    rw [Node.all, Bool.and_eq_true] at h
    rw [block]
    exact blocks_flow depth h.2
  | .paragraph _ ns, h => by
    rw [Node.all, Bool.and_eq_true] at h
    rw [block]
    exact flow_paragraph depth false h.2
  | .heading _ level ns, h => by
    rw [Node.all, Bool.and_eq_true] at h
    rw [block]
    exact flow_headingTokens depth level h.2
  | .blockquote _ ns, h => by
    rw [Node.all, Bool.and_eq_true] at h
    rw [block]
    exact .enclose (.mk' [] ">" false (by decide) (List.forall_mem_nil _))
      (blocks_flow (depth + 1) h.2)
  | .list _ ordered start? spread ns, h => by
    rw [Node.all, Bool.and_eq_true] at h
    have htag : listElement ordered ∈ blockTags := by cases ordered <;> decide
    rw [block]
    refine .enclose (.mk' _ "" false htag fun a ha => ?_) (items_flow depth _ h.2)
    unfold listAttrs at ha
    split at ha
    · split at ha
      · cases ha
      · exact .inl (congrArg Prod.fst (List.mem_singleton.mp ha))
    · cases ha
  | .code extent? value lang? rest?, _ => by
    rw [block]
    unfold codeToken
    dsimp only
    split
    · exact .single (.code _ _ _ (.inl rfl)) rfl
    · exact .single (.code _ "" "" (.inr rfl)) rfl
  | .html extent? value, h => by
    rw [block]
    exact .single (.html _ ⟨extent?, value, h⟩) rfl
  | .thematicBreak extent?, _ => by
    rw [block]
    exact .single (.rule _) rfl
  | .table _ columns ns, h => by
    rw [Node.all, Bool.and_eq_true] at h
    rw [block]
    exact flow_tableTokens depth columns h.1 h.2
  | .definition extent? _ url _, _ => by
    rw [block]
    exact flow_definitionTokens extent? url
  | .listItem .., _ | .math .., _ | .tableRow .., _ | .tableCell .., _ | .footnoteDefinition .., _
  | .text .., _ | .lineBreak .., _ | .inlineCode .., _ | .inlineMath .., _ | .emphasis .., _
  | .strong .., _ | .delete .., _ | .link .., _ | .linkReference .., _ | .image .., _
  | .imageReference .., _ => .nil

theorem blocks_flow (depth : Nat) : ∀ {ns : List Node},
    allOf p ns = true → Flow s.acceptance p (blocks s depth ns)
  | [], _ => .nil
  | n :: ns, h => by
    rw [allOf, Bool.and_eq_true] at h
    rw [blocks]
    exact .append (block_flow depth h.1)
      (blocks_flow depth h.2)

theorem items_flow (depth : Nat) (tight : Bool) : ∀ {ns : List Node},
    allOf p ns = true → Flow s.acceptance p (items s depth tight ns)
  | [], _ => .nil
  | n :: rest, h => by
    rw [allOf, Bool.and_eq_true] at h
    have hrest := items_flow depth tight h.2
    cases n with
    | listItem _ _ ns =>
      have hn := h.1
      rw [Node.all, Bool.and_eq_true] at hn
      rw [items]
      exact .append (.enclose (.plain (by decide)) (itemBlocks_flow depth tight hn.2)) hrest
    | _ => exact .append (block_flow depth h.1) hrest

theorem itemBlocks_flow (depth : Nat) (tight : Bool) : ∀ {ns : List Node},
    allOf p ns = true →
      Flow s.acceptance p (itemBlocks s depth tight ns)
  | [], _ => .nil
  | n :: rest, h => by
    rw [allOf, Bool.and_eq_true] at h
    have hrest := itemBlocks_flow depth tight h.2
    cases n with
    | paragraph _ ns =>
      have hn := h.1
      rw [Node.all, Bool.and_eq_true] at hn
      rw [itemBlocks]
      exact .append (flow_paragraph depth tight hn.2) hrest
    | _ => exact .append (block_flow depth h.1) hrest

end

theorem flow_tokens (source : String) (acceptance : Acceptance) (superscript : Bool)
    {root : Node} (h : root.all p = true) :
    Flow acceptance p (tokens source acceptance superscript root) :=
  block_flow (s := ⟨source.toList, acceptance, superscript, root.definitions⟩) 0 h

/-! ## All tokens -/

theorem Flow.cases_of_mem (hs : Flow acceptance p ts) (ht : t ∈ ts) : BlockToken p t ∨
    ∃ content us, t = Token.inline content us ∧ IsRun acceptance p us := by
  induction hs with
  | nil => cases ht
  | append _ _ ihts ihus => exact (List.mem_append.mp ht).elim ihts ihus
  | single h _ | stray h _ =>
    rw [List.mem_singleton] at ht
    exact .inl (ht ▸ h)
  | text content _ hb h =>
    simp only [List.mem_cons, List.not_mem_nil, or_false] at ht
    rcases ht with rfl | rfl | rfl
    · exact .inl hb.opening
    · exact .inr ⟨content, _, rfl, h⟩
    · exact .inl hb.closing
  | enclose hb _ ih =>
    rw [List.cons_append, List.mem_cons, List.mem_append, List.mem_singleton] at ht
    rcases ht with rfl | ht | rfl
    · exact .inl hb.opening
    · exact ih ht
    · exact .inl hb.closing

theorem BlockToken.children_eq (h : BlockToken p t) : t.children = none := by
  cases h <;> rfl

theorem BlockToken.kind_ne_inline (h : BlockToken p t) : t.kind ≠ .inline := by
  cases h with
  | code _ _ _ h => rcases h with rfl | rfl <;> exact nofun
  | _ => exact nofun

theorem BlockToken.fits (h : BlockToken p t) : t.Fits := by
  cases h with
  | code _ _ _ h => rcases h with rfl | rfl <;> rfl
  | _ => rfl

theorem LineToken.fits (h : LineToken acceptance p t) : t.Fits := by
  cases h with
  | «break» h => rcases h with rfl | rfl <;> rfl
  | _ => rfl

/-- Of running text only a picture has children, its alternative text. -/
theorem LineToken.cases_of_children (h : LineToken acceptance p t) :
    t.children = none ∨ t.kind = .image ∧ ∃ us, t.children = some us ∧
      ∀ u ∈ us, ∃ content, u = Token.text content := by
  cases h with
  | picture url alt title? hu =>
    refine .inr ⟨rfl, _, rfl, ?_⟩
    intro u hu
    split at hu
    · cases hu
    · exact ⟨alt, List.mem_singleton.mp hu⟩
  | _ => exact .inl rfl

/-- **What holds of every form of token holds of all tokens of a document.** -/
theorem everywhere_tokens {P : Option Kind → Token → Prop} (source : String)
    (acceptance : Acceptance) (superscript : Bool) {root : Node}
    (hblock : ∀ t, BlockToken p t → P none t)
    (htext : ∀ content ts, P none (Token.inline content ts))
    (hline : ∀ t, LineToken acceptance p t → P (some .inline) t)
    (halt : ∀ content, P (some .image) (Token.text content))
    (h : root.all p = true) :
    Everywhere P (tokens source acceptance superscript root) := by
  have hs := flow_tokens source acceptance superscript h
  have hbelow {t : Token} (ht : LineToken acceptance p t) :
      t.HoldsBelow fun parent? ts => ∀ t ∈ ts, P parent? t := by
    rcases ht.cases_of_children with hnone | ⟨hk, us, hus, halts⟩
    · exact Token.holdsBelow_of_none hnone
    · refine Token.holdsBelow_iff.mpr ?_
      intro cs hcs
      obtain rfl : us = cs := Option.some.inj (hus.symm.trans hcs)
      rw [hk]
      refine ⟨?_, holdBelow_iff.mpr ?_⟩
      · intro u hu
        obtain ⟨content, rfl⟩ := halts u hu
        exact halt content
      · intro u hu
        obtain ⟨content, rfl⟩ := halts u hu
        exact Token.holdsBelow_of_none rfl
  refine ⟨?_, holdBelow_iff.mpr ?_⟩
  · intro t ht
    rcases hs.cases_of_mem ht with hb | ⟨content, us, rfl, -⟩
    · exact hblock t hb
    · exact htext content us
  · intro t ht
    rcases hs.cases_of_mem ht with hb | ⟨content, us, rfl, hrun⟩
    · exact Token.holdsBelow_of_none hb.children_eq
    · refine Token.holdsBelow_iff.mpr ?_
      intro cs hcs
      obtain rfl : us = cs := Option.some.inj hcs
      exact ⟨fun u hu => hline u (hrun.lineToken u hu),
        holdBelow_iff.mpr fun u hu => hbelow (hrun.lineToken u hu)⟩

end MarkdownPreview.Markdown
