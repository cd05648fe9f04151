import MarkdownPreview.Markdown.Block
import MarkdownPreview.Proofs.Lowering.Cuts
import MarkdownPreview.Proofs.Veil.Nodes

/-!
# Running text whose comments differ

Nodes that are alike become running text that is alike. Text is added as if its characters were
added one by one, but those of a comment all go to the text the comment starts in, as they hold no
line feed (`addText_line`). What else is read off a source are the marks a node starts with, which
are before any comment, and whole stretches of text, which are alike.
-/

set_option autoImplicit false

namespace MarkdownPreview.Markdown

open Comment Text

variable {hides : List Char → List Char → Prop} {place : Nat → Nat → Prop}
  {calm : List Node → List Node → Prop} {xs ys cs : List Char} {x y : String} {c : Char}
  {t u : Token} {ts us : List Token}

/-! ## Adding text -/

theorem levelLike_dropLastSpaces (h : LevelLike hides ts us) :
    LevelLike hides (dropLastSpaces ts) (dropLastSpaces us) := by
  cases h with
  | nil => exact .nil
  | @cons t u ts us htu h =>
    have hkept := htu.content.dropEndWhile (p := (· == ' ')) (by decide)
    by_cases hk : t.kind = .text
    · have hku : u.kind = .text := by rwa [← htu.kind_eq]
      simp only [dropLastSpaces, if_pos hk, if_pos hku, hkept.isEmpty_eq]
      split
      · exact h
      · exact .cons (htu.retext hk hkept) h
    · have hku : u.kind ≠ .text := by rwa [← htu.kind_eq]
      simp only [dropLastSpaces, if_neg hk, if_neg hku]
      exact .cons htu h

theorem isAfterBreak_eq (h : LevelLike hides ts us) : isAfterBreak ts = isAfterBreak us := by
  cases h with
  | nil => rfl
  | cons htu _ => rw [isAfterBreak, isAfterBreak, htu.kind_eq]

theorem levelLike_joined (h : LevelLike hides ts us) (hxy : Alike hides xs ys) :
    LevelLike hides (joined ts xs) (joined us ys) := by
  cases h with
  | nil => exact .cons (leafLike_text hxy) .nil
  | @cons t u ts us htu h =>
    by_cases hk : t.kind = .text
    · have hku : u.kind = .text := by rwa [← htu.kind_eq]
      rw [joined, joined, if_pos hk, if_pos hku]
      exact .cons (htu.retext hk (htu.content.append hxy)) h
    · have hku : u.kind ≠ .text := by rwa [← htu.kind_eq]
      rw [joined, joined, if_neg hk, if_neg hku]
      exact .cons (leafLike_text hxy) (.cons htu h)

/-- Text on one line is added as a whole, unless a space of it is dropped after a break. -/
theorem addText_line (hspace : c ≠ ' ' ∨ isAfterBreak ts = false) (hline : '\n' ∉ c :: cs) :
    addText ts (c :: cs) = joined ts (c :: cs) := by
  rw [addText_of_lines (lines_of_not_mem hline), List.foldl_nil, addPiece_cons hspace]

theorem levelLike_addChar (h : LevelLike hides ts us) (c : Char) :
    LevelLike hides (addChar ts c) (addChar us c) := by
  by_cases hline : c = '\n'
  · unfold addChar
    rw [if_pos hline, if_pos hline]
    exact .cons (.same (by simp [breakToken])) (levelLike_dropLastSpaces h)
  · have hbreak := isAfterBreak_eq h
    by_cases hspace : c ≠ ' ' ∨ isAfterBreak ts = false
    · rw [addChar_eq_joined hline hspace, addChar_eq_joined hline (hbreak ▸ hspace)]
      exact levelLike_joined h (.refl _)
    · have hdrop : c = ' ' ∧ isAfterBreak ts = true := by simpa [not_or] using hspace
      unfold addChar
      rw [if_neg hline, if_neg hline, ← hbreak, hdrop.1, hdrop.2]
      exact h

/-- **Texts that are alike are added alike.** -/
theorem levelLike_addText (hl : OneLine hides) (hxy : Alike hides xs ys)
    (h : LevelLike hides ts us) : LevelLike hides (addText ts xs) (addText us ys) := by
  induction hxy generalizing ts us with
  | nil =>
    rw [addText_nil, addText_nil]
    exact h
  | cons c _ ih =>
    rw [addText_cons, addText_cons]
    exact ih (levelLike_addChar h c)
  | @comment old new xs ys hh _ ih =>
    have hadd {body : List Char} (hb : '\n' ∉ body) (ts : List Token) (xs : List Char) :
        addText ts (enclosed body ++ xs) = addText (joined ts (enclosed body)) xs := by
      have hline : '\n' ∉ enclosed body := by simpa [enclosed] using hb
      have hwhole : addText ts (enclosed body) = joined ts (enclosed body) :=
        addText_line (.inl (by decide)) hline
      rw [← hwhole, addText_append]
    rw [← enclosed_append, ← enclosed_append, hadd (hl hh).1, hadd (hl hh).2]
    refine ih (levelLike_joined h ?_)
    have hempty : Alike hides [] [] := .nil
    simpa using hempty.inComment hh

/-! ## What is read off a text -/

theorem dropCaseless?_rel {word : List Char} (hw : '<' ∉ word) (h : Alike hides xs ys) :
    Option.Rel (Alike hides) (dropCaseless? word xs) (dropCaseless? word ys) := by
  induction word generalizing xs ys with
  | nil => exact .some h
  | cons w word ih =>
    rw [List.mem_cons, not_or] at hw
    cases h with
    | nil => exact .none
    | cons c h =>
      rw [dropCaseless?, dropCaseless?]
      split
      · exact ih hw.2 h
      · exact .none
    | comment =>
      have hfold : foldCase '<' ≠ w := by
        have hsame : foldCase '<' = '<' := by decide
        rw [hsame]
        exact hw.1
      rw [dropCaseless?, dropCaseless?, if_neg hfold, if_neg hfold]
      exact .none

/-- An `<a>` element is told from a comment by its second character. -/
theorem opensAnchor_eq (h : AlikeText hides x y) : opensAnchor x = opensAnchor y := by
  have hword : "<a".toList = ['<', 'a'] := by decide
  unfold opensAnchor
  unfold AlikeText at h
  rw [hword]
  generalize x.toList = xs at h ⊢
  generalize y.toList = ys at h ⊢
  cases h with
  | nil => rfl
  | cons c h =>
    rw [dropCaseless?, dropCaseless?]
    by_cases hc : foldCase c = '<'
    · rw [if_pos hc, if_pos hc]
      rcases cases_of_rel (dropCaseless?_rel (by decide : '<' ∉ ['a']) h) with
        ⟨hx, hy⟩ | ⟨us, vs, hx, hy, huv⟩
      · rw [hx, hy]
      · rw [hx, hy]
        cases huv <;> rfl
    · rw [if_neg hc, if_neg hc]
  | comment => rfl

theorem startsWithScheme_eq (h : Alike hides xs ys) :
    startsWithScheme (String.ofList xs) = startsWithScheme (String.ofList ys) := by
  have hscheme (body rest : List Char) : startsWithScheme
      (String.ofList ('<' :: '!' :: '-' :: '-' :: (body ++ '-' :: '-' :: '>' :: rest)))
        = false := by
    simp [startsWithScheme, isSchemeLetter, foldCase]
  cases h with
  | nil => rfl
  | cons c h =>
    have hrest := h.dropWhile (p := isSchemeChar) (by decide)
    simp only [startsWithScheme, String.toList_ofList, hrest.head?_eq]
  | comment => rw [hscheme, hscheme]

/-- What makes a bare address one is at its start. -/
theorem isExplicitAddress_eq (h : Alike hides xs ys) (url : String) :
    isExplicitAddress (String.ofList xs) url = isExplicitAddress (String.ofList ys) url := by
  have hwww : "www.".toList.isPrefixOf xs = "www.".toList.isPrefixOf ys := by
    have hlen : "www.".toList.length = 4 := by decide
    rw [Bool.eq_iff_iff, List.isPrefixOf_iff_prefix, List.isPrefixOf_iff_prefix,
      List.prefix_iff_eq_take, List.prefix_iff_eq_take, hlen, h.take_eq le_rfl]
  have hlist (cs : List Char) : (String.ofList cs).toList = cs := String.toList_ofList
  rw [isExplicitAddress, isExplicitAddress, startsWithScheme_eq h, hlist xs, hlist ys, hwww]

theorem LinkForm.ofSource_eq (h : Alike hides xs ys) :
    LinkForm.ofSource xs = LinkForm.ofSource ys := by
  cases h with
  | nil => rfl
  | cons c _ =>
    by_cases hangle : c = '<'
    · subst hangle
      rfl
    · by_cases hbracket : c = '['
      · subst hbracket
        rfl
      · simp [LinkForm.ofSource, hangle, hbracket]
  | comment => rfl

/-! ## Nodes -/

/-- Settings of two documents whose sources are seen alike from their trees. -/
structure SettingLike (hides : List Char → List Char → Prop) (place : Nat → Nat → Prop)
    (s s' : Setting) : Prop where
  sight : Sight hides place s.source s'.source
  acceptance : s.acceptance = s'.acceptance
  superscript : s.superscript = s'.superscript
  definitions : s.definitions = s'.definitions

theorem settingLike_of_sight {source source' : List Char} (h : Sight hides place source source')
    (acceptance : Acceptance) (superscript : Bool) (definitions : List (String × Destination)) :
    SettingLike hides place ⟨source, acceptance, superscript, definitions⟩
      ⟨source', acceptance, superscript, definitions⟩ := ⟨h, rfl, rfl, rfl⟩

/-- Lines that are alike, within as many `<a>` elements. -/
structure LineLike (hides : List Char → List Char → Prop) (l m : Line) : Prop where
  newest : LevelLike hides l.newest m.newest
  anchors : l.anchors = m.anchors

variable {s s' : Setting} {l m : Line} {n n' : Node} {ns ns' : List Node} {e e' : Option Extent}

theorem SettingLike.slice (hs : SettingLike hides place s s') (he : ExtentLike place e e') :
    Alike hides (s.slice e) (s'.slice e') := by
  unfold Setting.slice
  rcases cases_of_rel he with ⟨hx, hy⟩ | ⟨e, e', hx, hy, hstart, hstop⟩
  · rw [hx, hy]
    exact .nil
  · rw [hx, hy, Option.bind_some, Option.bind_some]
    rcases cases_of_rel (hs.sight hstart hstop) with ⟨hx, hy⟩ | ⟨us, vs, hx, hy, huv⟩
    · rw [hx, hy]
    · rw [hx, hy]
      exact huv

theorem SettingLike.resolve?_eq (hs : SettingLike hides place s s') (identifier : String) :
    s.resolve? identifier = s'.resolve? identifier := by
  rw [Setting.resolve?, Setting.resolve?, hs.definitions, hs.acceptance]

theorem SettingLike.afterLabel (hs : SettingLike hides place s s')
    (hns : NodesLike place hides calm ns ns') {e e' : Extent}
    (hstart : place (e.start + 1) (e'.start + 1)) (hstop : place e.stop e'.stop) :
    Alike hides (s.afterLabel e ns) (s'.afterLabel e' ns') := by
  have hslice {n n' : Nat} (hn : place n n') : Alike hides
      ((slice? n e.stop s.source).getD []) ((slice? n' e'.stop s'.source).getD []) := by
    rcases cases_of_rel (hs.sight hn hstop) with ⟨hx, hy⟩ | ⟨us, vs, hx, hy, huv⟩
    · rw [hx, hy]
    · rw [hx, hy]
      exact huv
  unfold Setting.afterLabel
  rcases cases_of_rel (Veil.getLast?_rel hns.forall₂) with ⟨hx, hy⟩ | ⟨n, n', hx, hy, hn⟩
  · rw [hx, hy]
    exact hslice hstart
  · rw [hx, hy, Option.bind_some, Option.bind_some]
    rcases cases_of_rel hn.extent with ⟨hx, hy⟩ | ⟨_, _, hx, hy, -, hlast⟩
    · rw [hx, hy]
      exact hslice hstart
    · rw [hx, hy]
      exact hslice hlast

theorem LineLike.add (h : LineLike hides l m) (htu : LeafLike hides t u) :
    LineLike hides (l.add t) (m.add u) := ⟨.cons htu h.newest, h.anchors⟩

theorem LineLike.push (hl : OneLine hides) (h : LineLike hides l m) (hxy : Alike hides xs ys) :
    LineLike hides (l.push xs) (m.push ys) := ⟨levelLike_addText hl hxy h.newest, h.anchors⟩

theorem LineLike.insideAnchor_eq (h : LineLike hides l m) : l.insideAnchor = m.insideAnchor := by
  obtain ⟨ts, k⟩ := l
  obtain ⟨us, k'⟩ := m
  obtain ⟨hts, rfl⟩ := h
  cases hts with
  | nil => rfl
  | cons htu _ => simp only [Line.insideAnchor, htu.kind_eq, opensAnchor_eq htu.content]

theorem LineLike.pushHtml (h : LineLike hides l m) (html : String) :
    LineLike hides (l.pushHtml html) (m.pushHtml html) where
  newest := .cons (.same (by simp)) h.newest
  anchors := by simp only [Line.pushHtml, h.anchors]

/-- Tokens between which a line is written. -/
theorem LineLike.wrap {f g : Line → Line} (h : LineLike hides l m)
    (hfg : ∀ {l m}, LineLike hides l m → LineLike hides (f l) (g m)) {up down : Token}
    (hup : up.kind ≠ .inline) (hdown : down.kind ≠ .inline) :
    LineLike hides ((f (l.add up)).add down) ((g (m.add up)).add down) :=
  (hfg (h.add (.same hup))).add (.same hdown)

/-- A link that is not accepted is put back as it was written. -/
theorem LineLike.putBack (hl : OneLine hides) (hs : SettingLike hides place s s')
    (hns : NodesLike place hides calm ns ns')
    (hfg : ∀ {l m}, LineLike hides l m → LineLike hides (inlines s ns l) (inlines s' ns' m))
    (h : LineLike hides l m) : LinkExtentLike place e e' → LineLike hides
      (match e with
      | none => l
      | some e => (inlines s ns (l.push ['['])).push (s.afterLabel e ns))
      (match e' with
      | none => m
      | some e' => (inlines s' ns' (m.push ['['])).push (s'.afterLabel e' ns')) := by
  intro he
  rcases cases_of_rel he with ⟨rfl, rfl⟩ | ⟨e, e', rfl, rfl, ⟨-, hstart⟩, hstop⟩
  · exact h
  · exact (hfg (h.push hl (.refl _))).push hl (hs.afterLabel hns hstart hstop)

mutual

/-- **Nodes that are alike add what is alike to lines that are alike.** -/
theorem inline_like (hl : OneLine hides) (hs : SettingLike hides place s s') :
    ∀ {n n' : Node} {l m : Line}, NodeLike place hides calm n n' →
    LineLike hides l m → LineLike hides (inline s n l) (inline s' n' m)
  | _, _, _, _, .text _ hxy, h => by
    rw [inline, inline]
    exact h.push hl hxy
  | _, _, _, _, .lineBreak _, h => by
    rw [inline, inline]
    exact ⟨.cons (.same (by simp [breakToken])) (levelLike_dropLastSpaces h.newest), h.anchors⟩
  | _, _, _, _, .inlineCode _, h => by
    rw [inline, inline]
    exact h.add (.same (by simp))
  | _, _, _, _, .html _, h => by
    rw [inline, inline]
    exact h.pushHtml _
  | _, _, _, _, .emphasis he hns, h => by
    rw [inline, inline, (hs.slice he).take_eq (by decide)]
    exact h.wrap (inlines_like hl hs hns) (by simp [Token.spanOpening])
      (by simp [Token.spanClosing])
  | _, _, _, _, .strong he hns, h => by
    rw [inline, inline, (hs.slice he).take_eq (by decide)]
    exact h.wrap (inlines_like hl hs hns) (by simp [Token.spanOpening])
      (by simp [Token.spanClosing])
  | _, _, _, _, .delete he hns, h => by
    rw [inline, inline]
    exact h.wrap (inlines_like hl hs hns) (by simp [Token.spanOpening])
      (by simp [Token.spanClosing])
  | _, _, _, _, @NodeLike.link _ _ _ e e' url title? ns ns' he hns, h => by
    have hopening (title? : Option String) (markup : String) :
        (linkOpening url title? markup).kind ≠ .inline := by simp [linkOpening]
    have hclosing (markup : String) : (linkClosing markup).kind ≠ .inline := by
      simp [linkClosing, Token.spanClosing]
    have hslice := hs.slice he.extent
    unfold inline
    rw [LinkForm.ofSource_eq hslice]
    split
    · exact h.wrap (inlines_like hl hs hns) (hopening _ _) (hclosing _)
    · rw [hs.acceptance]
      split
      · exact h.wrap (inlines_like hl hs hns) (hopening _ _) (hclosing _)
      · exact h.putBack hl hs hns (inlines_like hl hs hns) he
    · dsimp only
      rw [hs.acceptance, isExplicitAddress_eq hslice, h.insideAnchor_eq]
      split
      · exact h.wrap (inlines_like hl hs hns) (hopening _ _) (hclosing _)
      · exact h.push hl hslice
  | _, _, _, _, .linkReference he hns, h => by
    unfold inline
    rw [hs.resolve?_eq]
    split
    · exact h.wrap (inlines_like hl hs hns) (by simp [linkOpening])
        (by simp [linkClosing, Token.spanClosing])
    · exact h.putBack hl hs hns (inlines_like hl hs hns) he
  | _, _, _, _, .image he, h => by
    rw [inline, inline, hs.acceptance]
    split
    · exact h.add (.same (by simp [picture]))
    · exact h.push hl (hs.slice he)
  | _, _, _, _, .imageReference he, h => by
    rw [inline, inline, hs.resolve?_eq]
    split
    · exact h.add (.same (by simp [picture]))
    · exact h.push hl (hs.slice he)
  | _, _, _, _, .root _ _, h | _, _, _, _, .paragraph _ _, h | _, _, _, _, .heading _ _ _, h
  | _, _, _, _, .blockquote _ _, h | _, _, _, _, .list _ _, h | _, _, _, _, .listItem _ _, h
  | _, _, _, _, .code _, h | _, _, _, _, .math _, h | _, _, _, _, .thematicBreak _, h
  | _, _, _, _, .table _ _, h | _, _, _, _, .tableRow _ _, h | _, _, _, _, .tableCell _ _, h
  | _, _, _, _, .definition _, h | _, _, _, _, .footnoteDefinition _ _, h
  | _, _, _, _, .inlineMath _, h => h

/-- … and so do several of them. -/
theorem inlines_like (hl : OneLine hides) (hs : SettingLike hides place s s') :
    ∀ {ns ns' : List Node} {l m : Line}, NodesLike place hides calm ns ns' →
    LineLike hides l m → LineLike hides (inlines s ns l) (inlines s' ns' m)
  | _, _, _, _, .nil, h => h
  | _, _, _, _, .cons hn hns, h => by
    rw [inlines, inlines]
    exact inlines_like hl hs hns (inline_like hl hs hn h)

end

theorem levelLike_inlineTokens (hl : OneLine hides) (hs : SettingLike hides place s s')
    (hns : NodesLike place hides calm ns ns') :
    LevelLike hides (inlineTokens s ns) (inlineTokens s' ns') :=
  List.rel_reverse (inlines_like hl hs hns ⟨.nil, rfl⟩).newest

end MarkdownPreview.Markdown
