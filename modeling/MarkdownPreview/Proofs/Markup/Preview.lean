import MarkdownPreview.Proofs.Lowering.Inventory
import MarkdownPreview.Proofs.Markup.Seams
import MarkdownPreview.Proofs.Markup.Written
import MarkdownPreview.Proofs.Rules.Run

/-!
# The HTML of a preview

If nothing in a document is HTML, its preview is made of text and of tags of the fixed choice
(`Preview.isMarkup_render`), whatever the options and the rules: no text, address, title or label of
the document can add a tag or an attribute.

A token can be written if its tag and the names of its attributes are of the choice, if a closing
one has no attributes, and if what is written as it stands is of that form already
(`Token.Writable`). The tokens of a document are writable before any rule, and rules keep them so.
-/

set_option autoImplicit false

namespace MarkdownPreview

open Html

/-- Whether a token of a kind is written as its tag. -/
def Kind.isTag : Kind → Bool
  | .opening _ | .closing _ | .hr | .image => true
  | _ => false

/-- A token, on a level of a kind of token, whose HTML is of the fixed choice. -/
structure Token.Writable (parent? : Option Kind) (t : Token) : Prop where
  fits : t.Fits
  attrs : ∀ a ∈ t.attrs, a.1 ∈ attributeNames
  closing : t.nesting = .closing → t.attrs = []
  tag : t.kind.isTag = true → t.tag ∈ tagNames
  raw : t.kind = .htmlBlock ∨ t.kind = .htmlInline → IsMarkup t.content
  run : t.kind = .inline → parent? = none

variable {parent? : Option Kind} {t u : Token}

/-! ## Rules -/

theorem Attrs.mem_set {name value : String} {a : String × String} : ∀ {attrs : Attrs},
    a ∈ attrs.set name value → a.1 = name ∨ a ∈ attrs
  | [], h => .inl (by rw [List.mem_singleton.mp h])
  | (key, old) :: attrs, h => by
    rw [Attrs.set] at h
    split at h
    · rename_i hkey
      rcases List.mem_cons.mp h with rfl | h
      · exact .inl hkey
      · exact .inr (List.mem_cons_of_mem _ h)
    · rcases List.mem_cons.mp h with rfl | h
      · exact .inr List.mem_cons_self
      · exact (Attrs.mem_set h).imp_right (List.mem_cons_of_mem _)

theorem Token.Writable.setAttr {name value : String} {e : Element} (h : t.Writable parent?)
    (hk : t.kind = .opening e) (hn : name ∈ attributeNames) :
    (t.setAttr name value).Writable parent? where
  fits := h.fits
  attrs a ha := by
    rcases Attrs.mem_set ha with ha | ha
    · exact ha ▸ hn
    · exact h.attrs a ha
  closing hc := absurd hc (h.fits.ne_closing (by rw [hk]; exact nofun))
  tag := h.tag
  raw := h.raw
  run := h.run

theorem Token.writable_html {html : String} (h : IsMarkup html) :
    (Token.html html).Writable parent? where
  fits := rfl
  attrs := List.forall_mem_nil _
  closing _ := rfl
  tag := nofun
  raw _ := h
  run := nofun

theorem Token.writable_text (content : String) : (Token.text content).Writable parent? where
  fits := rfl
  attrs := List.forall_mem_nil _
  closing _ := rfl
  tag := nofun
  raw := nofun
  run := nofun

theorem Token.Writable.edit (he : Edit t u) (h : t.Writable parent?) : u.Writable parent? := by
  cases he with
  | refl => exact h
  | content content hk =>
    refine ⟨h.fits, h.attrs, h.closing, h.tag, fun hr => ?_, h.run⟩
    rcases hk with hk | hk <;> rcases hr with hr | hr <;> cases hk.symm.trans hr
  | anchor id hk => exact h.setAttr hk (by decide)
  | mark hk => exact h.setAttr hk (by decide)
  | html html hk hw => exact Token.writable_html hw.isMarkup

theorem TokenLasting.writable : TokenLasting Token.Writable where
  blind _ h := ⟨h.fits, h.attrs, h.closing, h.tag, h.raw, h.run⟩
  edit he h := h.edit he
  text _ content := Token.writable_text content
  html hw := Token.writable_html hw.isMarkup

/-! ## Lowering -/

section

open Markdown

variable {acceptance : Acceptance} {p : Node → Bool}

theorem Markdown.BlockToken.writable (h : BlockToken p t) (hp : ¬ AllowsHtml p) :
    t.Writable none := by
  have htags : ∀ x ∈ blockTags, x.2 ∈ tagNames := by decide
  refine ⟨h.fits, ?_, ?_, ?_, ?_, fun hk => absurd hk h.kind_ne_inline⟩
  · cases h with
    | opening attrs markup hidden _ ha =>
      intro a hmem
      rcases ha a hmem with h | h <;> rw [h] <;> decide
    | _ => exact List.forall_mem_nil _
  · cases h with
    | opening => exact nofun
    | _ => exact fun _ => rfl
  · cases h with
    | opening attrs markup hidden htag _ => exact fun _ => htags _ htag
    | closing markup hidden htag => exact fun _ => htags _ htag
    | rule markup => exact fun _ => by show "hr" ∈ tagNames; decide
    | code _ _ _ hk => rcases hk with rfl | rfl <;> exact nofun
    | html _ hv => exact absurd hv hp
  · cases h with
    | code _ _ _ hk => rcases hk with rfl | rfl <;> exact nofun
    | html _ hv => exact absurd hv hp
    | _ => exact nofun

theorem Markdown.LineToken.writable (h : LineToken acceptance p t) (hp : ¬ AllowsHtml p) :
    t.Writable (some .inline) := by
  have htags : ∀ x ∈ spanTags, x.2 ∈ tagNames := by decide
  obtain ⟨hhref, hsrc, halt, hname⟩ : "href" ∈ attributeNames ∧ "src" ∈ attributeNames
      ∧ "alt" ∈ attributeNames ∧ "title" ∈ attributeNames := by decide
  have htitle (title? : Option String) :
      ∀ a ∈ (title?.map fun t => ("title", t)).toList, a.1 ∈ attributeNames := by
    intro a ha
    obtain ⟨t, -, rfl⟩ := Option.map_eq_some_iff.mp (Option.mem_toList.mp ha)
    exact hname
  refine ⟨h.fits, ?_, ?_, ?_, ?_, ?_⟩
  · cases h with
    | linkOpening url title? _ => exact List.forall_mem_cons.mpr ⟨hhref, htitle title?⟩
    | picture url alt title? _ =>
      exact List.forall_mem_cons.mpr ⟨hsrc, List.forall_mem_cons.mpr ⟨halt, htitle title?⟩⟩
    | _ => exact List.forall_mem_nil _
  · cases h with
    | linkOpening => exact nofun
    | picture => exact nofun
    | _ => exact fun _ => rfl
  · cases h with
    | «break» hk => rcases hk with rfl | rfl <;> exact nofun
    | spanOpening markup htag => exact fun _ => htags _ htag
    | spanClosing markup htag => exact fun _ => htags _ htag
    | linkOpening => exact fun _ => by show "a" ∈ tagNames; decide
    | linkClosing => exact fun _ => by show "a" ∈ tagNames; decide
    | picture => exact fun _ => by show "img" ∈ tagNames; decide
    | _ => exact nofun
  · cases h with
    | «break» hk => rcases hk with rfl | rfl <;> exact nofun
    | html _ hv => exact absurd hv hp
    | _ => exact nofun
  · cases h with
    | «break» hk => rcases hk with rfl | rfl <;> exact nofun
    | _ => exact nofun

end

theorem everywhere_writable (d : Document) (acceptance : Markdown.Acceptance) (superscript : Bool)
    (h : d.tree.all Markdown.Node.isMarkdown = true) :
    Everywhere Token.Writable (d.tokens acceptance superscript) :=
  Markdown.everywhere_tokens d.text acceptance superscript
    (fun _ hb => hb.writable Markdown.not_allowsHtml)
    (fun _ _ => ⟨rfl, List.forall_mem_nil _, nofun, nofun, nofun, fun _ => rfl⟩)
    (fun _ hl => hl.writable Markdown.not_allowsHtml) (fun _ => Token.writable_text _) h

/-! ## Writing -/

namespace Html

theorem escape_of_mem_attributeNames {name : String} (h : name ∈ attributeNames) :
    escape name = name := by
  have hplain : attributeNames.all (fun name =>
      name.toList.all fun c => attrChar c == [c]) = true := by decide
  refine escape_eq_self ?_
  intro c hc
  exact eq_of_beq (List.all_eq_true.mp (List.all_eq_true.mp hplain name h) c hc)

/-- The attributes of a tag, as they are written. -/
def written (attrs : Attrs) : List Attribute :=
  attrs.map fun a => ⟨a.1, '"', (escape a.2).toList⟩

theorem toList_attrsHtml {attrs : Attrs} (h : ∀ a ∈ attrs, a.1 ∈ attributeNames) :
    (attrsHtml attrs).toList = (written attrs).flatMap Attribute.chars := by
  rw [attrsHtml, String.toList_join, written, List.flatMap_map, List.flatMap_map]
  refine List.flatMap_congr ?_
  intro a ha
  simp [attrHtml, Attribute.chars, escape_of_mem_attributeNames (h a ha)]

theorem sound_written {attrs : Attrs} (h : ∀ a ∈ attrs, a.1 ∈ attributeNames) :
    ∀ a ∈ written attrs, a.Sound := by
  intro a ha
  obtain ⟨a, hmem, rfl⟩ := List.mem_map.mp ha
  exact Attribute.sound (h a hmem) (bracket_not_mem_escape a.2) (quote_not_mem_escape a.2)

theorem isMarkup_opening (name : String) {attrs : Attrs} {html : String} (slash : Bool)
    (hn : name ∈ tagNames) (h : ∀ a ∈ attrs, a.1 ∈ attributeNames)
    (heq : html.toList = '<' :: name.toList ++ (attrsHtml attrs).toList
      ++ (if slash then [' ', '/'] else []) ++ ['>']) : IsMarkup html :=
  .opening name (written attrs) slash hn (sound_written h)
    (by rw [heq, toList_attrsHtml h, Piece.chars])

theorem isMarkup_break {p : Prop} [Decidable p] : IsMarkup (if p then "\n" else "") := by
  split
  · exact .text (by decide)
  · exact .empty

/-- **A token written as its tag.** -/
theorem isMarkup_tag (flags : Flags) {p : Place} (hn : p.token.tag ∈ tagNames)
    (ha : ∀ a ∈ p.token.attrs, a.1 ∈ attributeNames)
    (hc : p.token.nesting = .closing → p.token.attrs = []) : IsMarkup (tag flags p) := by
  unfold tag
  split
  · exact .empty
  · have hend : (if p.endsLine = true then ">\n" else ">")
        = ">" ++ (if p.endsLine = true then "\n" else "") := by
      split <;> rfl
    have htag : IsMarkup ((if p.token.nesting = .closing then "</" else "<") ++ p.token.tag
        ++ attrsHtml p.token.attrs
        ++ (if p.token.nesting = .selfClosing ∧ flags.xhtml = true then " /" else "") ++ ">") := by
      by_cases hclosing : p.token.nesting = .closing
      · -- A closing tag has no attributes to write.
        rw [hc hclosing, hclosing]
        exact .closing _ hn (by simp [attrsHtml])
      · rw [if_neg hclosing]
        refine isMarkup_opening _ (p.token.nesting = .selfClosing ∧ flags.xhtml = true) hn ha ?_
        split <;> rename_i hslash <;> simp [hslash]
    have h := (isMarkup_break (p := p.startsLine = true)).append
      (htag.append (isMarkup_break (p := p.endsLine = true)))
    rw [hend]
    simpa only [String.append_assoc] using h

theorem isMarkup_lineBreak (flags : Flags) : IsMarkup (lineBreak flags) := by
  unfold lineBreak
  split
  · exact .opening "br" [] true (by decide) (List.forall_mem_nil _) rfl
  · exact .plainOpening "br" (by decide) rfl

theorem mem_addClass {a : String × String} {word : String} : ∀ {attrs : Attrs},
    a ∈ addClass attrs word → a.1 = "class" ∨ a ∈ attrs
  | [], h => .inl (by rw [List.mem_singleton.mp h])
  | (key, value) :: attrs, h => by
    rw [addClass] at h
    split at h
    · rename_i hkey
      rcases List.mem_cons.mp h with rfl | h
      · exact .inl hkey
      · exact .inr (List.mem_cons_of_mem _ h)
    · rcases List.mem_cons.mp h with rfl | h
      · exact .inr List.mem_cons_self
      · exact (mem_addClass h).imp_right (List.mem_cons_of_mem _)

theorem isMarkup_codeInline (flags : Flags) {p : Place}
    (ha : ∀ a ∈ p.token.attrs, a.1 ∈ attributeNames) : IsMarkup (codeInline flags p) := by
  have hopen : IsMarkup ("<code" ++ attrsHtml p.token.attrs ++ ">") :=
    isMarkup_opening "code" false (by decide) ha (by simp)
  have hclose : IsMarkup "</code>" := .closing "code" (by decide) rfl
  exact (hopen.append (.text (bracket_not_mem_escape _))).append hclose

theorem isMarkup_endOfBlock : IsMarkup "</code></pre>\n" :=
  ((IsMarkup.closing (a := "</code>") "code" (by decide) rfl).append
    (.closing (a := "</pre>") "pre" (by decide) rfl)).append
      (.text (a := "\n") (by decide))

theorem isMarkup_codeBlock (flags : Flags) {p : Place}
    (ha : ∀ a ∈ p.token.attrs, a.1 ∈ attributeNames) : IsMarkup (codeBlock flags p) := by
  have hpre : IsMarkup ("<pre" ++ attrsHtml p.token.attrs ++ ">") :=
    isMarkup_opening "pre" false (by decide) ha (by simp)
  have hcode : IsMarkup "<code>" := .plainOpening "code" (by decide) rfl
  have hopen : IsMarkup ("<pre" ++ attrsHtml p.token.attrs ++ "><code>") := by
    have h := hpre.append hcode
    rw [String.append_assoc] at h
    exact h
  exact (hopen.append (.text (bracket_not_mem_escape _))).append isMarkup_endOfBlock

theorem isMarkup_fence (flags : Flags) {p : Place}
    (ha : ∀ a ∈ p.token.attrs, a.1 ∈ attributeNames) : IsMarkup (fence flags p) := by
  have hpre : IsMarkup "<pre>" := .plainOpening "pre" (by decide) rfl
  have hcode {attrs : Attrs} (ha : ∀ a ∈ attrs, a.1 ∈ attributeNames) :
      IsMarkup ("<pre><code" ++ attrsHtml attrs ++ ">") := by
    have hopen : IsMarkup ("<code" ++ attrsHtml attrs ++ ">") :=
      isMarkup_opening "code" false (by decide) ha (by simp)
    have h := hpre.append hopen
    rwa [← String.append_assoc, ← String.append_assoc] at h
  unfold fence
  refine ((hcode ?_).append (.text (bracket_not_mem_escape _))).append isMarkup_endOfBlock
  split
  · exact ha
  · intro a hmem
    rcases mem_addClass hmem with h | h
    · rw [h]
      decide
    · exact ha a h

end Html

/-- **A writable token in its place.** -/
theorem Preview.isMarkup_renderPlace (p : Preview) {place : Place} {parent? : Option Kind}
    (h : place.token.Writable parent?) (hk : place.token.kind ≠ .inline) :
    IsMarkup (p.renderer.renderPlace place) := by
  have htag (ht : place.token.kind.isTag = true) :
      IsMarkup (tag p.renderer.flags place) := isMarkup_tag _ (h.tag ht) h.attrs h.closing
  have hfeed : IsMarkup "\n" := .text (by decide)
  unfold Html.Renderer.renderPlace
  cases hkind : place.token.kind with
  | inline => exact absurd hkind hk
  | opening e => exact htag (by rw [hkind]; rfl)
  | closing e => exact htag (by rw [hkind]; rfl)
  | hr => exact htag (by rw [hkind]; rfl)
  | fence => exact isMarkup_fence _ h.attrs
  | codeBlock => exact isMarkup_codeBlock _ h.attrs
  | codeInline => exact isMarkup_codeInline _ h.attrs
  | htmlBlock => exact h.raw (.inl hkind)
  | htmlInline => exact h.raw (.inr hkind)
  | text => exact .text (Prose.not_mem_escape _).1
  | hardbreak => exact (isMarkup_lineBreak _).append hfeed
  | softbreak =>
    show IsMarkup (if p.renderer.flags.breaks then lineBreak p.renderer.flags else "\n")
    split
    · exact isMarkup_lineBreak _
    · exact hfeed
  | image =>
    -- The alternative text is put in before the tag is written.
    refine isMarkup_tag _ (h.tag (by rw [hkind]; rfl)) (fun a ha => ?_) fun hc => ?_
    · rcases Attrs.mem_set ha with ha | ha
      · rw [ha]
        decide
      · exact h.attrs a ha
    · exact absurd hc (h.fits.ne_closing (by rw [hkind]; exact nofun))

/-- What is writable at every level is still so within an `inline` token, and is not one itself. -/
theorem writable_of_mem_inner {ts : List Token} (h : Everywhere Token.Writable ts) (ht : t ∈ ts)
    (hu : u ∈ t.inner) : u.Writable (some t.kind) ∧ u.kind ≠ .inline := by
  unfold Token.inner at hu
  cases hcs : t.children with
  | none =>
    rw [hcs] at hu
    cases hu
  | some cs =>
    rw [hcs] at hu
    have hw := (Token.holdsBelow_iff.mp (holdBelow_iff.mp h.2 t ht) cs hcs).1 u hu
    exact ⟨hw, fun hk => nomatch hw.run hk⟩

/-- **No markup injection.** If nothing in a document is HTML, its preview is made of text and of
tags of the fixed choice. -/
theorem Preview.isMarkup_render (p : Preview) (d : Document)
    (h : d.tree.all Markdown.Node.isMarkdown = true) : IsMarkup (p.render d) := by
  have hall : Everywhere Token.Writable (p.tokens d) := by
    rw [p.tokens_eq]
    exact TokenLasting.writable.runRules p.conditions p.enabled (everywhere_writable d _ _ h)
  refine IsMarkup.join ?_
  intro s hs
  obtain ⟨place, hplace, rfl⟩ := List.mem_map.mp hs
  have hmem := mem_of_mem_places hplace
  split
  · rename_i hk
    refine IsMarkup.join ?_
    intro s hs
    obtain ⟨inner, hinner, rfl⟩ := List.mem_map.mp hs
    obtain ⟨hw, hne⟩ := writable_of_mem_inner hall hmem (mem_of_mem_places hinner)
    exact p.isMarkup_renderPlace hw hne
  · rename_i hk
    exact p.isMarkup_renderPlace (hall.1 _ hmem) hk

/-- A document that tries to write tags and attributes wherever it has a say. -/
def Document.hostile : Document where
  source := ""
  tree := .root none
    [.heading none 1 [.text none "<script>", .inlineCode none "<^></code><b><^>"],
      .paragraph none
        [.linkReference none "a" [.text none "<$>[note]\"><b>"],
          .imageReference none "a" "\" onerror=\"x"],
      .code none "[label <b>]\n<^><b><^>" (some "custom_prefix(\"><b>)") none,
      .definition none "a" "https://x/\"onclick=\"x" (some "\"><b>")]

theorem Document.isMarkup_hostile :
    Document.hostile.tree.all Markdown.Node.isMarkdown = true ∧
      IsMarkup (Preview.render ⟨{ superscript := true }, Rule.all⟩ Document.hostile) := by
  have h : Document.hostile.tree.all Markdown.Node.isMarkdown = true := by decide
  exact ⟨h, Preview.isMarkup_render ⟨{ superscript := true }, Rule.all⟩ Document.hostile h⟩

end MarkdownPreview
