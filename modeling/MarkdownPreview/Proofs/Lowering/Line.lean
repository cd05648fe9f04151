import MarkdownPreview.Markdown.Raised
import MarkdownPreview.Proofs.Lowering.Cuts
import MarkdownPreview.Proofs.Tree.Nodes

/-!
# How running text grows

`Grows` lists what the tokens of a node of running text may add to a line: text, breaks, code,
pictures and HTML, and two tokens of an element around what has been added in between. Each node
adds nothing else (`inline_grows`), so a property of lines that all of these keep holds of every
line. A link says which destinations it can have, and where it cannot stand if it is made from a
bare address.

The nodes are those of a tree that satisfies some condition `p` (`Node.all`).
-/

set_option autoImplicit false

namespace MarkdownPreview.Markdown

/-- The elements of running text other than links, and their tags. -/
def spanTags : List (Element × String) :=
  [(.em, "em"), (.strong, "strong"), (.strikethrough, "s"), (.sup, "sup")]

/-- What can be added to a line, from one line to a later one. -/
inductive Grows (acceptance : Acceptance) (p : Node → Bool) : Line → Line → Prop
  | refl (l : Line) : Grows acceptance p l l
  | trans {l m k : Line} (hl : Grows acceptance p l m) (hm : Grows acceptance p m k) :
      Grows acceptance p l k
  | push (l : Line) (text : List Char) : Grows acceptance p l (l.push text)
  | hardBreak (l : Line) : Grows acceptance p l l.pushHardBreak
  | code (l : Line) (content : String) : Grows acceptance p l
      (l.add { kind := .codeInline, tag := "code", content, markup := "`" })
  | html (l : Line) (value : String) (h : AllowsHtml p) : Grows acceptance p l (l.pushHtml value)
  | picture (l : Line) (url alt : String) (title? : Option String)
      (h : acceptance.admits url = true) : Grows acceptance p l (l.add (picture url alt title?))
  | span {l m : Line} (e : Element) (tag markup : String) (h : (e, tag) ∈ spanTags)
      (hm : Grows acceptance p (l.add (Token.spanOpening e tag markup)) m) :
      Grows acceptance p l (m.add (Token.spanClosing e tag markup))
  | link {l m : Line} (url : String) (title? : Option String) (markup : String)
      (hu : markup = "" → acceptance.admits url = true)
      (ha : markup = "linkify" → acceptance = .lenient ∨ l.insideAnchor = false)
      (hm : Grows acceptance p (l.add (linkOpening url title? markup)) m) :
      Grows acceptance p l (m.add (linkClosing markup))

/-- A link that is not accepted is put back as it was written. -/
theorem Grows.putBack {acceptance : Acceptance} {p : Node → Bool} {l m : Line}
    (h : Grows acceptance p (l.push ['[']) m) (text : List Char) :
    Grows acceptance p l (m.push text) :=
  .trans (.push l _) (.trans h (.push m text))

theorem Setting.admits_of_resolve? {s : Setting} {identifier : String} {d : Destination}
    (h : s.resolve? identifier = some d) : s.acceptance.admits d.url = true :=
  (Option.filter_eq_some_iff.mp h).2

mutual

/-- **A node of running text adds nothing but what `Grows` lists.** -/
theorem inline_grows (s : Setting) {p : Node → Bool} : ∀ (n : Node) (l : Line), n.all p = true →
    Grows s.acceptance p l (inline s n l)
  | .text _ value, l, _ => by
    rw [inline]
    exact .push l value.toList
  | .lineBreak _, l, _ => by
    rw [inline]
    exact .hardBreak l
  | .inlineCode _ value, l, _ => by
    rw [inline]
    exact .code l value
  | .html extent? value, l, h => by
    rw [inline]
    exact .html l value ⟨extent?, value, h⟩
  | .emphasis _ ns, l, h => by
    rw [Node.all, Bool.and_eq_true] at h
    rw [inline]
    exact .span .em "em" _ (by decide) (inlines_grows s ns _ h.2)
  | .strong _ ns, l, h => by
    rw [Node.all, Bool.and_eq_true] at h
    rw [inline]
    exact .span .strong "strong" _ (by decide) (inlines_grows s ns _ h.2)
  | .delete _ ns, l, h => by
    rw [Node.all, Bool.and_eq_true] at h
    rw [inline]
    exact .span .strikethrough "s" _ (by decide) (inlines_grows s ns _ h.2)
  | .link e url title? ns, l, h => by
    rw [Node.all, Bool.and_eq_true] at h
    have hns := fun l => inlines_grows s ns l h.2
    unfold inline
    -- Whatever its address, a link in angle brackets is made; one in square brackets is made, dropped
    -- or put back; a bare address is made a link or stays text.
    split
    · exact .link url none "autolink" (by simp) (by simp) (hns _)
    · split
      · rename_i hu
        exact .link url title? "" (fun _ => hu) (by simp) (hns _)
      · split
        · exact .refl l
        · exact (hns _).putBack _
    · dsimp only
      split
      · rename_i hu
        exact .link url none "linkify" (by simp) (fun _ => hu.imp_right And.right) (hns _)
      · exact .push l _
  | .linkReference e identifier ns, l, h => by
    rw [Node.all, Bool.and_eq_true] at h
    have hns := fun l => inlines_grows s ns l h.2
    unfold inline
    split
    · rename_i d hd
      exact .link d.url d.title? "" (fun _ => Setting.admits_of_resolve? hd) (by simp) (hns _)
    · split
      · exact .refl l
      · exact (hns _).putBack _
  | .image e url alt title?, l, _ => by
    rw [inline]
    split
    · rename_i hu
      exact .picture l url alt title? hu
    · exact .push l _
  | .imageReference e identifier alt, l, _ => by
    rw [inline]
    split
    · rename_i d hd
      exact .picture l d.url alt d.title? (Setting.admits_of_resolve? hd)
    · exact .push l _
  | .root .., l, _ | .paragraph .., l, _ | .heading .., l, _ | .blockquote .., l, _
  | .list .., l, _ | .listItem .., l, _ | .code .., l, _ | .math .., l, _ | .thematicBreak .., l, _
  | .table .., l, _ | .tableRow .., l, _ | .tableCell .., l, _ | .definition .., l, _
  | .footnoteDefinition .., l, _ | .inlineMath .., l, _ => .refl l

/-- … and neither do several of them. -/
theorem inlines_grows (s : Setting) {p : Node → Bool} : ∀ (ns : List Node) (l : Line),
    allOf p ns = true → Grows s.acceptance p l (inlines s ns l)
  | [], l, _ => .refl l
  | n :: ns, l, h => by
    rw [allOf, Bool.and_eq_true] at h
    rw [inlines]
    exact .trans (inline_grows s n l h.1)
      (inlines_grows s ns _ h.2)

end

/-! ## What raising makes of a text -/

/-- What holds of texts and of the two tokens around a raised run holds of all tokens that raising
makes of a text. -/
theorem forall_mem_raiseText {P : Token → Prop} (htext : ∀ content, P (Token.text content))
    (hup : P (Token.spanOpening .sup "sup" "^")) (hdown : P (Token.spanClosing .sup "sup" "^"))
    (text : String) : ∀ t ∈ raiseText text, P t := by
  have hplain (cs : List Char) : ∀ t ∈ plainText cs, P t := by
    unfold plainText
    split
    · exact List.forall_mem_nil _
    · exact List.forall_mem_singleton.mpr (htext _)
  intro t ht
  rcases List.mem_append.mp ht with ht | ht
  · exact hplain _ t ht
  · obtain ⟨⟨body, after⟩, -, ht⟩ := List.mem_flatMap.mp ht
    rcases List.mem_append.mp ht with ht | ht
    · simp only [raisedTokens, List.mem_cons, List.not_mem_nil, or_false] at ht
      rcases ht with rfl | rfl | rfl
      · exact hup
      · exact htext _
      · exact hdown
    · exact hplain _ t ht

/-- The tokens of the text of a block: a line from its start, with superscripts or without. -/
def IsRun (acceptance : Acceptance) (p : Node → Bool) (ts : List Token) : Prop :=
  ∃ l, Grows acceptance p {} l ∧ (ts = l.newest.reverse ∨ ts = raiseAll l.newest.reverse)

theorem isRun_text (acceptance : Acceptance) (p : Node → Bool) (text : List Char) :
    IsRun acceptance p (addText [] text).reverse :=
  ⟨Line.push {} text, .push {} text, .inl rfl⟩

theorem isRun_inlineTokens (s : Setting) {p : Node → Bool} {ns : List Node}
    (h : allOf p ns = true) : IsRun s.acceptance p
      (if s.superscript then raiseAll (inlineTokens s ns) else inlineTokens s ns) := by
  refine ⟨inlines s ns {}, inlines_grows s ns {} h, ?_⟩
  split
  · exact .inr rfl
  · exact .inl rfl

/-! ## What adding text leaves alone -/

/-- Whether a token is text or a line break. Adding text may change or drop such a token. -/
def isLoose (t : Token) : Bool := t.kind == .text || t.kind == .softbreak || t.kind == .hardbreak

/-- The other tokens. -/
def firm (ts : List Token) : List Token := ts.filter fun t => !isLoose t

@[simp] theorem firm_cons_loose {t : Token} (h : isLoose t = true) (ts : List Token) :
    firm (t :: ts) = firm ts := by
  rw [firm, List.filter_cons_of_neg (by simp [h])]
  rfl

theorem firm_cons_firm {t : Token} (h : isLoose t = false) (ts : List Token) :
    firm (t :: ts) = t :: firm ts :=
  List.filter_cons_of_pos (by simp [h])

theorem isLoose_of_kind {t : Token} (h : t.kind = .text) : isLoose t = true := by
  simp [isLoose, h]

theorem firm_dropLastSpaces (ts : List Token) : firm (dropLastSpaces ts) = firm ts := by
  cases ts with
  | nil => rfl
  | cons t ts =>
    rw [dropLastSpaces]
    split
    · rename_i hk
      rw [firm_cons_loose (isLoose_of_kind hk)]
      dsimp only
      split
      · rfl
      · exact firm_cons_loose (by exact isLoose_of_kind hk) ts
    · rfl

theorem firm_addChar (ts : List Token) (c : Char) : firm (addChar ts c) = firm ts := by
  have hbreak : isLoose (breakToken .softbreak) = true := rfl
  have htext : isLoose (Token.text c.toString) = true := rfl
  unfold addChar
  split
  · rw [firm_cons_loose hbreak, firm_dropLastSpaces]
  · split
    · rfl
    · split
      · rw [firm_cons_loose htext]
      · rename_i t rest _
        split
        · rename_i hk
          rw [firm_cons_loose (isLoose_of_kind hk)]
          exact firm_cons_loose (by exact isLoose_of_kind hk) rest
        · exact firm_cons_loose htext _

theorem firm_addText (ts : List Token) (text : List Char) : firm (addText ts text) = firm ts := by
  rw [addText_eq_foldl]
  induction text generalizing ts with
  | nil => rfl
  | cons c text ih => rw [List.foldl_cons, ih, firm_addChar]

theorem firm_pushHardBreak (l : Line) : firm l.pushHardBreak.newest = firm l.newest := by
  have hbreak : isLoose (breakToken .hardbreak) = true := rfl
  rw [Line.pushHardBreak, firm_cons_loose hbreak, firm_dropLastSpaces]

end MarkdownPreview.Markdown
