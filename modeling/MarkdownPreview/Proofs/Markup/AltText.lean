import MarkdownPreview.Proofs.Markup.Parts
import MarkdownPreview.Proofs.Rules.Pictures

/-!
# The alternative text of a picture in the output

The alternative text of a picture is written as an attribute, escaped. What is read from the
attribute, once, is what the children of the picture say in plain text, and that is the text that the
tree gives to the picture, with one exception (`pictures_written`): if the rule for variables has
found a variable in it, the plain text is the finished HTML that this rule makes, with its tags and
references (`alt_of_variable`).
-/

set_option autoImplicit false

namespace MarkdownPreview

open Html

/-! ## Pictures in the output -/

/-- What is written for the pictures of a document. -/
def Html.Renderer.pictureParts (r : Renderer) (ts : List Token) : List String :=
  ((r.parts ts).filter fun part => part.1.kind == .image).map Prod.snd

/-- The tag of a picture that stands alone. -/
def pictureTag (flags : Flags) (t : Token) : String := image flags ⟨none, t, none⟩

variable {r : Renderer} {ts : List Token}

/-- How a picture is written does not hang on what stands around it. -/
theorem renderPlace_picture (hr : r.rule? .image = some image) {q : Place}
    (hk : q.token.kind = .image) : r.renderPlace q = pictureTag r.flags q.token := by
  rw [Renderer.renderPlace, hk, hr]
  rfl

theorem pictureParts_line (hr : r.rule? .image = some image) (qs : List Place) :
    ((qs.map fun q => (q.token, r.renderPlace q)).filter fun part => part.1.kind == .image).map
        Prod.snd
      = qs.flatMap fun q => (ownPictures q.token).map (pictureTag r.flags) := by
  induction qs with
  | nil => rfl
  | cons q qs ih =>
    rw [List.map_cons, List.flatMap_cons, ← ih, ownPictures]
    by_cases hk : q.token.kind = .image
    · rw [List.filter_cons_of_pos (by simp [hk]), List.map_cons, renderPlace_picture hr hk,
        if_pos hk]
      rfl
    · rw [List.filter_cons_of_neg (by simp [hk]), if_neg hk]
      rfl

theorem pictureParts_at (hr : r.rule? .image = some image) {q : Place}
    (hk : q.token.kind ≠ .image) :
    ((r.partsAt q).filter fun part => part.1.kind == .image).map Prod.snd
      = (picturesOf q.token).map (pictureTag r.flags) := by
  unfold Renderer.partsAt picturesOf
  split
  · rw [pictureParts_line hr, flatMap_places fun t => (ownPictures t).map (pictureTag r.flags),
      picturesIn, List.map_flatMap]
  · rw [List.filter_cons_of_neg (by simp [hk])]
    rfl

/-- What is written for the pictures is their tags, in order. -/
theorem pictureParts_eq (hr : r.rule? .image = some image) (h : Everywhere IsPictureWithin ts) :
    r.pictureParts ts = (pictures ts).map (pictureTag r.flags) := by
  rw [Renderer.pictureParts, Renderer.parts, List.filter_flatMap, List.map_flatMap, pictures,
    List.map_flatMap, ← flatMap_places fun t => (picturesOf t).map (pictureTag r.flags)]
  refine List.flatMap_congr fun q hq => ?_
  exact pictureParts_at hr fun hk => h.1 q.token (mem_of_mem_places hq) hk rfl

/-! ## What is read from the tag of a picture -/

/-- A tag of a picture from whose attributes this source and this alternative text are read. -/
def ReadsAs (html src alt : String) : Prop :=
  ∃ v v' rest, html = "<img src=\"" ++ v ++ "\" alt=\"" ++ v' ++ "\"" ++ rest
    ∧ '"' ∉ v.toList ∧ '"' ∉ v'.toList
    ∧ decode v.toList = src.toList ∧ decode v'.toList = alt.toList

/-- The plain text that a picture with this alternative text has, where variables are highlighted or
not. -/
def plainAlt (highlighted : Bool) (alt : String) : String :=
  if highlighted && Variable.occurs alt then Variable.highlight Prose.escape Prose.escape alt
  else alt

theorem plainTextOf_alternative (highlighted : Bool) (alt : String) :
    plainTextOf (alternative highlighted alt) = plainAlt highlighted alt := by
  unfold alternative plainAlt
  split
  · rename_i hempty
    have hnone : Variable.occurs "" = false := by decide
    rw [String.isEmpty_iff.mp hempty, hnone, Bool.and_false, if_neg Bool.false_ne_true]
    rfl
  · rw [plainTextOf, plainTextOf, String.append_empty]
    cases highlighted with
    | false => rfl
    | true =>
      rw [if_pos rfl, Bool.true_and, highlightToken_text]
      split <;> rfl

theorem decode_escape (text : String) : decode (escape text).toList = text.toList := by
  rw [escape, String.toList_ofList, decode_escaped]

theorem pictureTag_after (flags : Flags) (highlighted : Bool) (pic : Picture) :
    pictureTag flags (pic.after highlighted)
      = "<img" ++ attrsHtml (("src", pic.url) :: ("alt", plainAlt highlighted pic.alt)
          :: (pic.title?.map fun t => ("title", t)).toList)
        ++ (if flags.xhtml = true then " /" else "") ++ ">" := by
  have hattrs :
      ((pic.after highlighted).setAttr "alt" (plainTextOf (pic.after highlighted).inner)).attrs
        = ("src", pic.url) :: ("alt", plainAlt highlighted pic.alt)
          :: (pic.title?.map fun t => ("title", t)).toList := by
    rw [← plainTextOf_alternative]
    rfl
  unfold pictureTag image tag
  rw [hattrs]
  simp [Picture.after, Picture.token, Markdown.picture, Token.setAttr, Place.startsLine,
    Place.endsLine]

theorem readsAs_pictureTag (flags : Flags) (highlighted : Bool) (pic : Picture) :
    ReadsAs (pictureTag flags (pic.after highlighted)) pic.url (plainAlt highlighted pic.alt) := by
  have hsrc : escape "src" = "src" := by decide
  have halt : escape "alt" = "alt" := by decide
  refine ⟨escape pic.url, escape (plainAlt highlighted pic.alt),
    attrsHtml (pic.title?.map fun t => ("title", t)).toList
      ++ (if flags.xhtml = true then " /" else "") ++ ">",
    ?_, quote_not_mem_escape _, quote_not_mem_escape _, decode_escape _, decode_escape _⟩
  rw [pictureTag_after]
  simp only [attrsHtml, List.map_cons, String.join_cons, attrHtml, hsrc, halt]
  apply String.toList_injective
  simp

/-! ## The pictures of a preview -/

/-- What the tokens of a document depend on besides its tree. -/
def Preview.setting (p : Preview) (d : Document) : Markdown.Setting :=
  ⟨d.text.toList, p.acceptance, p.options.superscript, d.tree.definitions⟩

/-- The pictures of a document that a preview accepts, in order. -/
def Preview.pictures (p : Preview) (d : Document) : List Picture :=
  (d.tree.passages 0).flatMap (Markdown.Passage.pictures (p.setting d))

/-- Whether every link of a document that has a picture in it was written in brackets. -/
def Preview.bracketsPictures (p : Preview) (d : Document) : Bool :=
  (d.tree.passages 0).all (Markdown.Passage.bracketsPictures (p.setting d))

/-- Before any rule, the pictures of a document are as they were written. -/
theorem shows_tokens (p : Preview) (d : Document) :
    Shows (p.bracketsPictures d = true) Picture.token
      (pictures (d.tokens p.acceptance p.options.superscript)) (p.pictures d) :=
  Markdown.shows_block 0 d.tree

theorem everywhere_isPictureWithin (d : Document) (acceptance : Markdown.Acceptance)
    (superscript : Bool) : Everywhere IsPictureWithin (d.tokens acceptance superscript) := by
  refine Markdown.everywhere_tokens (p := fun _ => true) d.text acceptance superscript
    (fun t hb hk => ?_) (fun _ _ => nofun) (fun _ _ _ => nofun) (fun _ => nofun) d.tree.all_true
  cases hb with
  | code _ _ _ hcode => rcases hcode with rfl | rfl <;> cases hk
  | _ => cases hk

/-- **The alternative text of a picture can be read from the output**, unless the rule for variables
has found a variable in it. The pictures that are written are those of the document, in order; none
is missing if links around pictures are in brackets, unless notes were wrapped or comments taken out.
From the tag of each its source and its alternative text are read, but where a variable has been
highlighted in the text, it is the finished HTML of the highlighted text. -/
theorem pictures_written (p : Preview) (d : Document) :
    ∃ kept : List Picture,
      List.Sublist kept (p.pictures d)
      ∧ (p.bracketsPictures d = true → Rule.notes ∉ p.enabled →
          (Rule.comments ∈ p.enabled → p.options.html = true) → kept = p.pictures d)
      ∧ p.render d = String.join ((p.renderer.parts (p.tokens d)).map Prod.snd)
      ∧ List.Forall₂ (fun html pic =>
            ReadsAs html pic.url (plainAlt (p.isEnabled .variables) pic.alt))
          (p.renderer.pictureParts (p.tokens d)) kept := by
  have hbefore : Shows (p.bracketsPictures d = true) (Picture.after false)
      (pictures (d.tokens p.acceptance p.options.superscript)) (p.pictures d) := shows_tokens p d
  obtain ⟨kept, hkept, hall, hrun⟩ := (shows_runRules (c := p.conditions)
    (d := { tokens := d.tokens p.acceptance p.options.superscript }) p.enabled
    (Comment.everywhere_isTopText d p.acceptance p.options.superscript) hbefore).exists_kept
  refine ⟨kept, hkept, fun hbrackets hnotes hcomments => hall ⟨hbrackets, hnotes, hcomments⟩,
    render_eq_parts _ _, ?_⟩
  have hwithin : Everywhere IsPictureWithin (p.tokens d) :=
    tokenLasting_isPictureWithin.runRules p.conditions p.enabled
      (d := { tokens := d.tokens p.acceptance p.options.superscript })
      (everywhere_isPictureWithin d p.acceptance p.options.superscript)
  rw [pictureParts_eq rfl hwithin, Preview.tokens_eq, hrun, List.map_map, Bool.or_false,
    List.forall₂_map_left_iff, List.forall₂_same]
  exact fun pic _ => readsAs_pictureTag _ _ pic

/-- A picture in a link whose text has a quote and a bracket, where all rules run that take no
picture out. -/
theorem pictures_written_quoted :
    let pic : Picture := ⟨"#x", "a \"b\" < c", some "t"⟩
    let p : Preview := ⟨{}, [.headings, .links, .variables, .samples, .spacing]⟩
    let d : Document := ⟨"[![a \"b\" < c](#x \"t\")](#y)", .root none [.paragraph none
      [.link (some ⟨0, 26⟩) "#y" none [.image none pic.url pic.alt pic.title?]]]⟩
    p.pictures d = [pic] ∧ p.bracketsPictures d = true
      ∧ ∃ html, p.renderer.pictureParts (p.tokens d) = [html] ∧ ReadsAs html pic.url pic.alt := by
  intro pic p d
  have hone : p.pictures d = [pic] := by decide +kernel
  have hbrackets : p.bracketsPictures d = true := by decide +kernel
  obtain ⟨kept, -, hall, -, hread⟩ := pictures_written p d
  rw [hall hbrackets (by decide) fun hmem => absurd hmem (by decide), hone] at hread
  have hplain : plainAlt (p.isEnabled .variables) pic.alt = pic.alt := by decide
  obtain ⟨html, rest, hhtml, hrest, hparts⟩ := List.forall₂_cons_right_iff.mp hread
  obtain rfl := List.forall₂_nil_right_iff.mp hrest
  exact ⟨hone, hbrackets, html, hparts, hplain ▸ hhtml⟩

/-- A variable in the text of a picture: what is read is HTML, neither the text nor the name. -/
theorem alt_of_variable :
    let p : Preview := ⟨{}, [.variables]⟩
    let d : Document := ⟨"![<^>a<^>](#x)", .root (some ⟨0, 14⟩)
      [.paragraph (some ⟨0, 14⟩) [.image (some ⟨0, 14⟩) "#x" "<^>a<^>" none]]⟩
    let alt := "&lt;span class=&quot;highlight&quot;&gt;a&lt;/span&gt;"
    p.render d = "<p><img src=\"#x\" alt=\"" ++ alt ++ "\"></p>\n"
      ∧ decode alt.toList = "<span class=\"highlight\">a</span>".toList := by
  intro p d alt
  let pic : Picture := ⟨"#x", "<^>a<^>", none⟩
  have hbefore : d.tokens p.acceptance p.options.superscript = [Markdown.opening .paragraph "p",
      Token.inline d.source [pic.token], Markdown.closing .paragraph "p"] := by decide +kernel
  have hpic : pic.token.mapLevels Variable.highlightLevel = pic.after true :=
    mapLevels_after (highlightLevel_alternative false pic.alt)
  have hline : Variable.highlightLevel (some .inline) [pic.after true] = [pic.after true] := by
    rw [Variable.highlightLevel, if_pos rfl, Variable.rejoin, Variable.rejoinFrom]
    · rfl
    · intro _ _ _ _ _ hfive
      cases hfive
  have hinline : (Token.inline d.source [pic.token]).mapLevels Variable.highlightLevel
      = Token.inline d.source [pic.after true] := by
    rw [Token.mapLevels_eq, Token.inline, mapChildren, mapBelow, mapBelow, hpic, hline]
    rfl
  have htokens : p.tokens d = [Markdown.opening .paragraph "p",
      Token.inline d.source [pic.after true], Markdown.closing .paragraph "p"] := by
    have hrun : p.tokens d
        = Variable.highlightAll (d.tokens p.acceptance p.options.superscript) := rfl
    rw [hrun, hbefore, Variable.highlightAll, mapLevels, mapBelow, mapBelow, hinline]
    rfl
  rw [Preview.render, htokens]
  decide +kernel

end MarkdownPreview
