import MarkdownPreview.Proofs.Markup.Reading
import MarkdownPreview.Proofs.Markup.Seams

/-!
# What the stock rules write can be read back

The HTML that the stock renderer writes for tokens without raw HTML says what the tokens say, no more
and no less (`render_reads_back`). Its angle brackets are those of the tags of the tokens (`tagsOf`),
in order; what stands between the tags is the text of the tokens (`said`), escaped once, with line feeds
around block tags. So no text, attribute, info string or alternative text adds a tag or takes one away:
the names of the tags hang on the shapes of the tokens alone (`shape`).

The proof goes rule by rule. Each rule writes a piece of HTML that shows its tags and its text
(`Shows`), and pieces put together show what they showed apart.
-/

set_option autoImplicit false

namespace MarkdownPreview.Html

open Text

/-! ## What is written of a list of tokens -/

/-- The tokens that are written: those of the list, with the children of an `inline` token in its
place. The children of an image are not among them; they make an attribute of it. -/
def shown (ts : List Token) : List Token :=
  ts.flatMap fun t => if t.kind = .inline then t.inner else [t]

/-- The text of a token. -/
def said (t : Token) : List Char :=
  match t.kind with
  | .text | .codeInline | .codeBlock | .fence => t.content.toList
  | _ => []

/-- The tag of a token that is written as a tag, unless it is hidden. -/
def ownTag (flags : Flags) (t : Token) : List String :=
  if t.hidden then []
  else
    [(if t.nesting = .closing then "/" else "") ++ t.tag
      ++ (attrsHtml t.attrs ++ if t.nesting = .selfClosing ∧ flags.xhtml = true then " /" else "")]

def breakTag (flags : Flags) : String := if flags.xhtml then "br /" else "br"

/-- The attributes of a fenced code block, with its language among the classes. -/
def fenceAttrs (t : Token) : Attrs :=
  if (trim t.info.toList).isEmpty then t.attrs
  else addClass t.attrs ("language-" ++ String.ofList (firstWord t.info.toList))

/-- The tags that are written for a token, without their angle brackets. -/
def tagsOf (flags : Flags) (t : Token) : List String :=
  match t.kind with
  | .text | .htmlBlock | .htmlInline => []
  | .codeInline => ["code" ++ attrsHtml t.attrs, "/code"]
  | .codeBlock => ["pre" ++ attrsHtml t.attrs, "code", "/code", "/pre"]
  | .fence => ["pre", "code" ++ attrsHtml (fenceAttrs t), "/code", "/pre"]
  | .image => ownTag flags (t.setAttr "alt" (plainTextOf t.inner))
  | .hardbreak => [breakTag flags]
  | .softbreak => if flags.breaks then [breakTag flags] else []
  | _ => ownTag flags t

/-- A text without its line feeds. -/
def feedless (cs : List Char) : List Char := cs.filter (· != '\n')

/-! ## Pieces of HTML -/

/-- A text that can stand in a tag. -/
def IsClean (s : String) : Prop := ∀ c ∈ s.toList, inTag c = true

instance (s : String) : Decidable (IsClean s) :=
  decidable_of_iff (s.toList.all inTag = true) List.all_eq_true

/-- A piece of HTML has some tags, and a text between them, up to line feeds. -/
def Shows (html : String) (tags : List String) (text : List Char) : Prop :=
  ∃ plain, Writes html.toList tags plain ∧ feedless plain = feedless text

namespace Shows

variable {html html' : String} {tags tags' : List String} {text text' : List Char}

theorem append (h : Shows html tags text) (h' : Shows html' tags' text') :
    Shows (html ++ html') (tags ++ tags') (text ++ text') := by
  obtain ⟨plain, hw, heq⟩ := h
  obtain ⟨plain', hw', heq'⟩ := h'
  refine ⟨plain ++ plain', ?_, ?_⟩
  · rw [String.toList_append]
    exact hw.append hw'
  · simp only [feedless, List.filter_append] at heq heq' ⊢
    rw [heq, heq']

theorem empty : Shows "" [] [] := ⟨[], .nil, rfl⟩

/-- A line feed counts for nothing. -/
theorem feed : Shows "\n" [] [] := ⟨['\n'], .char '\n' .nil, rfl⟩

theorem escaped (text : String) : Shows (escape text) [] text.toList := by
  refine ⟨text.toList, ?_, rfl⟩
  rw [escape, String.toList_ofList]
  exact .escaped text.toList

theorem tag {tag : String} (clean : IsClean tag) (h : html = "<" ++ tag ++ ">") :
    Shows html [tag] [] := by
  refine ⟨[], ?_, rfl⟩
  have hchars : html.toList = '<' :: (tag.toList ++ '>' :: []) := by simp [h]
  rw [hchars]
  exact .tag clean .nil

/-- An escaped text between tags. -/
theorem enclose (h : Shows html tags []) (text : String) (h' : Shows html' tags' []) :
    Shows (html ++ escape text ++ html') (tags ++ tags') text.toList := by
  have hall := (h.append (escaped text)).append h'
  simpa only [List.nil_append, List.append_nil] using hall

/-- Pieces in a row. -/
theorem join {α : Type} {f : α → String} {g : α → List String} {k : α → List Char} {xs : List α}
    (h : ∀ x ∈ xs, Shows (f x) (g x) (k x)) :
    Shows (String.join (xs.map f)) (xs.flatMap g) (xs.flatMap k) := by
  induction xs with
  | nil => exact empty
  | cons x xs ih =>
    rw [List.forall_mem_cons] at h
    rw [List.map_cons, String.join_cons, List.flatMap_cons, List.flatMap_cons]
    exact h.1.append (ih h.2)

end Shows

/-! ## Tags -/

theorem IsClean.append {s s' : String} (h : IsClean s) (h' : IsClean s') : IsClean (s ++ s') := by
  intro c hc
  rw [String.toList_append, List.mem_append] at hc
  exact hc.elim (h c) (h' c)

theorem isClean_escape (text : String) : IsClean (escape text) := by
  intro c hc
  rw [escape, String.toList_ofList, List.mem_flatMap] at hc
  obtain ⟨d, -, hd⟩ := hc
  exact inTag_of_mem_attrChar hd

theorem isClean_attrsHtml (attrs : Attrs) : IsClean (attrsHtml attrs) := by
  intro c hc
  rw [attrsHtml, String.toList_join, List.flatMap_map, List.mem_flatMap] at hc
  obtain ⟨⟨name, value⟩, -, hc⟩ := hc
  have hspace : IsClean " " := by decide
  have hequals : IsClean "=\"" := by decide
  have hquote : IsClean "\"" := by decide
  exact (((hspace.append (isClean_escape name)).append hequals).append (isClean_escape value)).append
    hquote c hc

theorem isClean_ownTag (flags : Flags) {t : Token} (ht : IsClean t.tag) :
    ∀ tag ∈ ownTag flags t, IsClean tag := by
  intro tag htag
  unfold ownTag at htag
  split at htag
  · cases htag
  · rw [List.mem_singleton.mp htag]
    refine .append (.append ?_ ht) (.append (isClean_attrsHtml t.attrs) ?_)
    · split <;> decide
    · split <;> decide

/-- A token written as its tag, with a line feed before or after it where one is due. -/
theorem shows_tag (flags : Flags) {p : Place} (ht : IsClean p.token.tag) :
    Shows (tag flags p) (ownTag flags p.token) [] := by
  have hfeed (b : Bool) : Shows (if b then "\n" else "") [] [] := by
    cases b
    · exact .empty
    · exact .feed
  have hclean := isClean_ownTag flags ht
  unfold tag ownTag at *
  split
  · exact .empty
  · rename_i hhidden
    rw [if_neg hhidden, List.forall_mem_singleton] at hclean
    have hstart : (if p.token.nesting = .closing then "</" else "<")
        = "<" ++ if p.token.nesting = .closing then "/" else "" := by
      split <;> rfl
    have hend : (if p.endsLine = true then ">\n" else ">")
        = ">" ++ if p.endsLine = true then "\n" else "" := by
      split <;> rfl
    have h := ((hfeed p.startsLine).append (Shows.tag hclean rfl)).append (hfeed p.endsLine)
    rw [hstart, hend]
    simpa only [String.append_assoc, List.nil_append, List.append_nil] using h

theorem shows_lineBreak (flags : Flags) : Shows (lineBreak flags) [breakTag flags] [] := by
  unfold lineBreak breakTag
  split
  · exact .tag (by decide) rfl
  · exact .tag (by decide) rfl

/-! ## The stock rules -/

theorem shows_codeInline (flags : Flags) (p : Place) : Shows (codeInline flags p)
    ["code" ++ attrsHtml p.token.attrs, "/code"] p.token.content.toList := by
  have hcode : IsClean "code" := by decide
  have hopen : Shows ("<code" ++ attrsHtml p.token.attrs ++ ">")
      ["code" ++ attrsHtml p.token.attrs] [] :=
    .tag (hcode.append (isClean_attrsHtml _)) (by rw [← String.append_assoc]; rfl)
  have hclose : Shows "</code>" ["/code"] [] := .tag (by decide) rfl
  exact hopen.enclose p.token.content hclose

/-- The end of a block of code. -/
theorem shows_endOfBlock : Shows "</code></pre>\n" ["/code", "/pre"] [] := by
  have hcode : Shows "</code>" ["/code"] [] := .tag (by decide) rfl
  have hpre : Shows "</pre>" ["/pre"] [] := .tag (by decide) rfl
  have hparts : "</code></pre>\n" = "</code>" ++ "</pre>" ++ "\n" := by decide
  rw [hparts]
  exact (hcode.append hpre).append .feed

theorem shows_codeBlock (flags : Flags) (p : Place) : Shows (codeBlock flags p)
    ["pre" ++ attrsHtml p.token.attrs, "code", "/code", "/pre"] p.token.content.toList := by
  have hword : IsClean "pre" := by decide
  have hpre : Shows ("<pre" ++ attrsHtml p.token.attrs ++ ">")
      ["pre" ++ attrsHtml p.token.attrs] [] :=
    .tag (hword.append (isClean_attrsHtml _)) (by rw [← String.append_assoc]; rfl)
  have hcode : Shows "<code>" ["code"] [] := .tag (by decide) rfl
  have hopen : Shows ("<pre" ++ attrsHtml p.token.attrs ++ "><code>")
      ["pre" ++ attrsHtml p.token.attrs, "code"] [] := by
    have h := hpre.append hcode
    rw [String.append_assoc] at h
    exact h
  exact hopen.enclose p.token.content shows_endOfBlock

theorem shows_fence (flags : Flags) (p : Place) : Shows (fence flags p)
    ["pre", "code" ++ attrsHtml (fenceAttrs p.token), "/code", "/pre"] p.token.content.toList := by
  have hword : IsClean "code" := by decide
  have hpre : Shows "<pre>" ["pre"] [] := .tag (by decide) rfl
  have hcode : Shows ("<code" ++ attrsHtml (fenceAttrs p.token) ++ ">")
      ["code" ++ attrsHtml (fenceAttrs p.token)] [] :=
    .tag (hword.append (isClean_attrsHtml _)) (by rw [← String.append_assoc]; rfl)
  have hopen : Shows ("<pre><code" ++ attrsHtml (fenceAttrs p.token) ++ ">")
      ["pre", "code" ++ attrsHtml (fenceAttrs p.token)] [] := by
    have h := hpre.append hcode
    rwa [← String.append_assoc, ← String.append_assoc] at h
  have hfence : fence flags p = "<pre><code" ++ attrsHtml (fenceAttrs p.token) ++ ">"
      ++ escape p.token.content ++ "</code></pre>\n" := rfl
  rw [hfence]
  exact hopen.enclose p.token.content shows_endOfBlock

/-- **A token in its place shows its tags and its text**, unless it is raw HTML. -/
theorem shows_renderPlace (flags : Flags) {p : Place} (ht : IsClean p.token.tag)
    (hraw : p.token.kind ≠ .htmlBlock ∧ p.token.kind ≠ .htmlInline) :
    Shows ((Renderer.stock flags).renderPlace p) (tagsOf flags p.token) (said p.token) := by
  unfold Renderer.renderPlace tagsOf said
  cases hkind : p.token.kind with
  | text => exact .escaped p.token.content
  | codeInline => exact shows_codeInline flags p
  | codeBlock => exact shows_codeBlock flags p
  | fence => exact shows_fence flags p
  | htmlBlock => exact absurd hkind hraw.1
  | htmlInline => exact absurd hkind hraw.2
  | hardbreak => exact (shows_lineBreak flags).append .feed
  | softbreak =>
    show Shows (if flags.breaks then lineBreak flags ++ "\n" else "\n")
      (if flags.breaks then [breakTag flags] else []) []
    split
    · exact (shows_lineBreak flags).append .feed
    · exact .feed
  | image =>
    -- The alternative text is put in before the tag is written; it leaves the name of the tag.
    have halt : IsClean (p.token.setAttr "alt" (plainTextOf p.token.inner)).tag := ht
    exact shows_tag flags (p := ⟨none, p.token.setAttr "alt" (plainTextOf p.token.inner), none⟩) halt
  | opening e => exact shows_tag flags ht
  | closing e => exact shows_tag flags ht
  | hr => exact shows_tag flags ht
  | inline => exact shows_tag flags ht

/-! ## A list of tokens -/

/-- The places of tokens that can all be written. -/
theorem shows_renderRun (flags : Flags) {ts : List Token} (ht : ∀ t ∈ ts, IsClean t.tag)
    (hraw : ∀ t ∈ ts, t.kind ≠ .htmlBlock ∧ t.kind ≠ .htmlInline) :
    Shows ((Renderer.stock flags).renderRun ts) (ts.flatMap (tagsOf flags)) (ts.flatMap said) := by
  have h : Shows ((Renderer.stock flags).renderRun ts)
      ((places ts).flatMap fun p => tagsOf flags p.token)
      ((places ts).flatMap fun p => said p.token) := by
    apply Shows.join
    intro p hp
    have hmem := mem_of_mem_places hp
    exact shows_renderPlace flags (ht _ hmem) (hraw _ hmem)
  rwa [flatMap_places, flatMap_places] at h

theorem shows_render (flags : Flags) {ts : List Token} (ht : ∀ t ∈ shown ts, IsClean t.tag)
    (hraw : ∀ t ∈ shown ts, t.kind ≠ .htmlBlock ∧ t.kind ≠ .htmlInline) :
    Shows ((Renderer.stock flags).render ts) ((shown ts).flatMap (tagsOf flags))
      ((shown ts).flatMap said) := by
  have h : Shows ((Renderer.stock flags).render ts)
      ((places ts).flatMap fun p => (shown [p.token]).flatMap (tagsOf flags))
      ((places ts).flatMap fun p => (shown [p.token]).flatMap said) := by
    apply Shows.join
    intro p hp
    have hpart : ∀ t ∈ shown [p.token], t ∈ shown ts := by
      intro t hmem
      rw [shown, List.flatMap_singleton] at hmem
      exact List.mem_flatMap.mpr ⟨p.token, mem_of_mem_places hp, hmem⟩
    have ht' := fun t hmem => ht t (hpart t hmem)
    have hraw' := fun t hmem => hraw t (hpart t hmem)
    rw [shown, List.flatMap_singleton] at ht' hraw' ⊢
    split
    · rename_i hk
      rw [if_pos hk] at ht' hraw'
      exact shows_renderRun flags ht' hraw'
    · rename_i hk
      rw [if_neg hk, List.forall_mem_singleton] at ht' hraw'
      rw [List.flatMap_singleton, List.flatMap_singleton]
      exact shows_renderPlace flags ht' hraw'
  have hshown {α : Type} (f : Token → List α) :
      (places ts).flatMap (fun p => (shown [p.token]).flatMap f) = (shown ts).flatMap f := by
    rw [flatMap_places fun t => (shown [t]).flatMap f, shown, List.flatMap_assoc]
    refine List.flatMap_congr fun t _ => ?_
    rw [shown, List.flatMap_singleton]
  rwa [hshown, hshown] at h

/-! ## The names of the tags -/

/-- The name of a tag: what it has before its first space, and the slash of a closing tag. -/
def tagName (tag : String) : List Char := tag.toList.takeWhile (· != ' ')

/-- What a token is, whatever it says. -/
def shape (t : Token) : Kind × String × Nesting × Bool := (t.kind, t.tag, t.nesting, t.hidden)

theorem tagName_append {s s' : String} (h : tagName s' = []) : tagName (s ++ s') = tagName s := by
  unfold tagName at *
  rw [String.toList_append, List.takeWhile_append, h, List.append_nil]
  split
  · rename_i hlength
    exact ((List.takeWhile_prefix _).eq_of_length hlength).symm
  · rfl

theorem tagName_attrsHtml (attrs : Attrs) : tagName (attrsHtml attrs) = [] := by
  cases attrs with
  | nil => rfl
  | cons a attrs => simp [tagName, attrsHtml, attrHtml, String.join_cons]

theorem tagName_append_attrsHtml (word : String) (attrs : Attrs) :
    tagName (word ++ attrsHtml attrs) = tagName word := tagName_append (tagName_attrsHtml attrs)

theorem map_tagName_ownTag (flags : Flags) (t : Token) : (ownTag flags t).map tagName
    = if t.hidden then [] else [tagName ((if t.nesting = .closing then "/" else "") ++ t.tag)] := by
  unfold ownTag
  split
  · rfl
  · have hend : tagName (attrsHtml t.attrs
        ++ if t.nesting = .selfClosing ∧ flags.xhtml = true then " /" else "") = [] := by
      rw [tagName_append, tagName_attrsHtml]
      split <;> decide
    rw [List.map_singleton, tagName_append hend]

theorem map_tagName_ownTag_congr (flags : Flags) {t u : Token} (h : shape u = shape t) :
    (ownTag flags u).map tagName = (ownTag flags t).map tagName := by
  obtain ⟨-, htag, hnesting, hhidden⟩ : u.kind = t.kind ∧ u.tag = t.tag
      ∧ u.nesting = t.nesting ∧ u.hidden = t.hidden := by simpa [shape] using h
  rw [map_tagName_ownTag, map_tagName_ownTag, htag, hnesting, hhidden]

/-- **The names of the tags hang on the shape of the token alone.** -/
theorem map_tagName_tagsOf_congr (flags : Flags) {t u : Token} (h : shape u = shape t) :
    (tagsOf flags u).map tagName = (tagsOf flags t).map tagName := by
  have hkind : u.kind = t.kind := congrArg Prod.fst h
  unfold tagsOf
  rw [hkind]
  cases t.kind with
  | codeInline => simp only [List.map_cons, tagName_append_attrsHtml]
  | codeBlock => simp only [List.map_cons, tagName_append_attrsHtml]
  | fence => simp only [List.map_cons, tagName_append_attrsHtml]
  | image =>
    -- The alternative text is an attribute, so the shape is still that of the image.
    exact map_tagName_ownTag_congr flags h
  | opening e => exact map_tagName_ownTag_congr flags h
  | closing e => exact map_tagName_ownTag_congr flags h
  | hr => exact map_tagName_ownTag_congr flags h
  | inline => exact map_tagName_ownTag_congr flags h
  | _ => rfl

theorem map_tagName_congr (flags : Flags) : ∀ {ts us : List Token}, us.map shape = ts.map shape →
    (us.flatMap (tagsOf flags)).map tagName = (ts.flatMap (tagsOf flags)).map tagName
  | [], us, h => by rw [List.map_eq_nil_iff.mp h]
  | t :: ts, us, h => by
    obtain ⟨u, us, rfl, hu, hus⟩ := List.map_eq_cons_iff.mp h
    rw [List.flatMap_cons, List.flatMap_cons, List.map_append, List.map_append,
      map_tagName_tagsOf_congr flags hu, map_tagName_congr flags hus]

/-- What holds of the shapes of tokens holds of all tokens of the same shapes. -/
theorem forall_mem_of_map_shape {P : Kind × String × Nesting × Bool → Prop} {ts us : List Token}
    (h : us.map shape = ts.map shape) (ht : ∀ t ∈ ts, P (shape t)) : ∀ u ∈ us, P (shape u) := by
  intro u hu
  have hmem : shape u ∈ ts.map shape := h ▸ List.mem_map_of_mem hu
  obtain ⟨t, hmem, heq⟩ := List.mem_map.mp hmem
  exact heq ▸ ht t hmem

/-! ## Reading back -/

/-- **What the stock renderer writes reads back as what the tokens say.** The tags are those of the
tokens, and no other angle bracket is there; what is left, its references read once, is the text of the
tokens up to line feeds; and the names of the tags are the same for all tokens of the same shapes. -/
theorem render_reads_back (flags : Flags) (ts : List Token)
    (hraw : ∀ t ∈ shown ts, t.kind ≠ .htmlBlock ∧ t.kind ≠ .htmlInline)
    (htag : ∀ t ∈ shown ts, ∀ c ∈ t.tag.toList, c ≠ '<' ∧ c ≠ '>') :
    let html := ((Renderer.stock flags).render ts).toList
    tagsIn html = (shown ts).flatMap (tagsOf flags)
      ∧ (∀ c ∈ betweenTags html, c ≠ '<' ∧ c ≠ '>')
      ∧ feedless (decode (betweenTags html)) = feedless ((shown ts).flatMap said)
      ∧ ∀ us, (shown us).map shape = (shown ts).map shape →
          (tagsIn ((Renderer.stock flags).render us).toList).map tagName
            = (tagsIn html).map tagName := by
  intro html
  have hclean : ∀ t ∈ shown ts, IsClean t.tag := by
    intro t ht c hc
    have hne := htag t ht c hc
    simp [inTag, hne]
  obtain ⟨plain, hw, hsaid⟩ := shows_render flags hclean hraw
  refine ⟨hw.tagsIn_eq, ?_, ?_, ?_⟩
  · intro c hc
    have hin := hw.forall_mem_betweenTags c hc
    simpa [inTag] using hin
  · rw [hw.decode_eq]
    exact hsaid
  · intro us hshape
    have hclean' : ∀ u ∈ shown us, IsClean u.tag :=
      forall_mem_of_map_shape (P := fun s => IsClean s.2.1) hshape hclean
    have hraw' : ∀ u ∈ shown us, u.kind ≠ .htmlBlock ∧ u.kind ≠ .htmlInline :=
      forall_mem_of_map_shape (P := fun s => s.1 ≠ .htmlBlock ∧ s.1 ≠ .htmlInline) hshape hraw
    obtain ⟨plain', hw', -⟩ := shows_render flags hclean' hraw'
    rw [hw'.tagsIn_eq, hw.tagsIn_eq]
    exact map_tagName_congr flags hshape

/-- Tokens that try to write tags wherever they have a say. -/
theorem render_reads_back_hostile :
    let alt := [Token.text "<b>"]
    let picture : Token :=
      { kind := .image, tag := "img", attrs := [("src", "\">")], children := some alt }
    let sample : Token := { kind := .fence, content := "&\n<pre>", info := "x\"><i> y" }
    let ts : List Token :=
      [.ofBlock (.opening .paragraph) "p" .opening, .inline "" [.text "a</p>&lt;", picture],
        .ofBlock (.closing .paragraph) "p" .closing, sample]
    (∀ t ∈ shown ts, t.kind ≠ .htmlBlock ∧ t.kind ≠ .htmlInline)
      ∧ (∀ t ∈ shown ts, ∀ c ∈ t.tag.toList, c ≠ '<' ∧ c ≠ '>')
      ∧ tagsIn ((Renderer.stock {}).render ts).toList
          = ["p", "img src=\"&quot;&gt;\" alt=\"&lt;b&gt;\"", "/p", "pre",
            "code class=\"language-x&quot;&gt;&lt;i&gt;\"", "/code", "/pre"]
      ∧ feedless (decode (betweenTags ((Renderer.stock {}).render ts).toList))
          = "a</p>&lt;&<pre>".toList := by
  intro alt picture sample ts
  have hraw : ∀ t ∈ shown ts, t.kind ≠ .htmlBlock ∧ t.kind ≠ .htmlInline := by decide
  have hclean : ∀ t ∈ shown ts, IsClean t.tag := by decide
  have htag : ∀ t ∈ shown ts, ∀ c ∈ t.tag.toList, c ≠ '<' ∧ c ≠ '>' := by
    intro t ht c hc
    simpa [inTag] using hclean t ht c hc
  obtain ⟨htags, -, hsaid, -⟩ := render_reads_back {} ts hraw htag
  refine ⟨hraw, htag, ?_, ?_⟩
  · rw [htags]
    decide +kernel
  · rw [hsaid]
    decide +kernel

end MarkdownPreview.Html
