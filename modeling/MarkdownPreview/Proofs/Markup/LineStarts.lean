import Mathlib.Data.List.Chain
import MarkdownPreview.Proofs.Lowering.Inventory
import MarkdownPreview.Proofs.Lowering.Passages
import MarkdownPreview.Proofs.Markup.Parts

/-!
# Block tags start a line

Whether a line feed stands before or after a block tag is decided tag by tag, by the neighbours of
the token; a document puts its tokens next to each other in such a way that every opening or empty
block tag comes at the start of a line (`blockTags_startLine`).

The text of a block is always followed by the closing token of the block (`Flow.isChain`). So
before such a tag there is the start of the output, a hidden token, after which the tag brings its
own line feed, or a token of the block structure that ends its line: a tag that is not followed by
text, code, or HTML, which ends with a line feed as it stands in the document.
-/

set_option autoImplicit false

namespace MarkdownPreview

open Html Markdown

/-! ## Neighbours in a document -/

/-- A token that holds the text of a block is followed by the token that closes the block. -/
def ClosedAfter (t u : Token) : Prop := t.kind = .inline → u.nesting = .closing

variable {acceptance : Acceptance} {p : Node → Bool} {ts us : List Token} {t u o c : Token}

/-- The tokens of a document stand next to each other like this, and the text of a block is not the
last of them. -/
structure Closed (ts : List Token) : Prop where
  chain : ts.IsChain ClosedAfter
  last : ∀ t ∈ ts.getLast?, t.kind ≠ .inline

theorem closed_nil : Closed [] := ⟨.nil, nofun⟩

theorem closed_single (h : t.kind ≠ .inline) : Closed [t] :=
  ⟨.singleton t, fun u hu => by cases hu; exact h⟩

theorem Closed.append (hts : Closed ts) (hus : Closed us) : Closed (ts ++ us) where
  chain := List.isChain_append.mpr ⟨hts.chain, hus.chain,
    fun t ht _ _ hk => absurd hk (hts.last t ht)⟩
  last := by
    intro t ht
    rw [List.getLast?_append, Option.mem_def, Option.or_eq_some_iff] at ht
    rcases ht with ht | ⟨-, ht⟩
    · exact hus.last t ht
    · exact hts.last t ht

theorem Markdown.Flow.closed (h : Flow acceptance p ts) : Closed ts := by
  induction h with
  | nil => exact closed_nil
  | append _ _ ihts ihus => exact ihts.append ihus
  | single h _ | stray h _ => exact closed_single h.kind_ne_inline
  | @text e o c us content _ hb _ =>
    have hnesting : c.nesting = .closing := by
      rw [hb.closing.fits, hb.kind_closing]
      rfl
    have htail : Closed [Token.inline content us, c] :=
      ⟨.cons_cons (fun _ => hnesting) (.singleton c),
        fun u hu => by cases hu; exact hb.closing.kind_ne_inline⟩
    exact (closed_single hb.opening.kind_ne_inline).append htail
  | enclose hb _ ih =>
    exact ((closed_single hb.opening.kind_ne_inline).append ih).append
      (closed_single hb.closing.kind_ne_inline)

/-! ## Lines of the output -/

/-- Whether a text ends with a line feed. -/
def EndsLine (s : String) : Prop := ∃ line, s = line ++ "\n"

/-- Whether what follows a text is at the start of a line. -/
def IsLineStart (s : String) : Prop := s = "" ∨ EndsLine s

theorem EndsLine.append {s : String} (h : EndsLine s) (before : String) :
    EndsLine (before ++ s) := by
  obtain ⟨line, rfl⟩ := h
  exact ⟨before ++ line, (String.append_assoc ..).symm⟩

/-- The tag of a token, without the line feeds around it. -/
def writtenTag (flags : Flags) (t : Token) : String :=
  (if t.nesting = .closing then "</" else "<") ++ t.tag ++ attrsHtml t.attrs
    ++ (if t.nesting = .selfClosing ∧ flags.xhtml = true then " /" else "") ++ ">"

theorem tag_eq {q : Place} (flags : Flags) (h : q.token.hidden = false) :
    tag flags q = (if q.startsLine then "\n" else "") ++ writtenTag flags q.token
      ++ (if q.endsLine then "\n" else "") := by
  unfold tag writtenTag
  rw [h]
  cases q.endsLine <;> simp [String.append_assoc]

/-- A block of HTML of a document ends its line. -/
theorem endsLine_htmlToken (value : String) : EndsLine (htmlToken value).content := by
  unfold htmlToken
  dsimp only
  split
  · rename_i hlast
    obtain ⟨line, hline⟩ := List.getLast?_eq_some_iff.mp hlast
    exact ⟨String.ofList line, by rw [← String.ofList_toList (s := value), hline,
      String.ofList_append]⟩
  · exact ⟨value, rfl⟩

theorem endsLine_htmlBlock {source : String} {superscript : Bool} {root : Node}
    (ht : t ∈ tokens source acceptance superscript root) (hk : t.kind = .htmlBlock) :
    EndsLine t.content := by
  have hstanding : t ∈ standing (tokens source acceptance superscript root) :=
    List.mem_filter.mpr ⟨ht, by rw [hk]; rfl⟩
  rw [tokens, standing_block] at hstanding
  obtain ⟨p, -, hp⟩ := List.mem_flatMap.mp hstanding
  cases p with
  | html value =>
    obtain rfl := List.mem_singleton.mp hp
    exact endsLine_htmlToken value
  | code extent? value lang? rest? =>
    obtain rfl := List.mem_singleton.mp hp
    unfold codeToken at hk
    dsimp only at hk
    split at hk <;> cases hk
  | definition _ extent? url =>
    rw [Passage.tokens] at hp
    split at hp
    · cases hp
    · obtain rfl := List.mem_singleton.mp hp
      cases hk
  | text _ _ | thematicBreak _ =>
    obtain rfl := List.mem_singleton.mp hp
    cases hk

/-- The tag of a token ends its line if `endsLine` says so. -/
theorem endsLine_tag {q : Place} (flags : Flags) (hhidden : q.token.hidden = false)
    (h : q.endsLine = true) : EndsLine (tag flags q) :=
  ⟨_, by rw [tag_eq flags hhidden, if_pos h]⟩

/-- **A block ends its line before an opening or empty tag.** -/
theorem endsLine_renderPlace {q : Place} (flags : Flags) (hq : BlockToken p q.token)
    (hhtml : q.token.kind = .htmlBlock → EndsLine q.token.content)
    (hhidden : q.token.hidden = false) (hnext : q.next? = some t) (hk : t.kind ≠ .inline)
    (hth : t.hidden = false) (hnesting : t.nesting ≠ .closing) :
    EndsLine ((Renderer.stock flags).renderPlace q) := by
  obtain ⟨previous?, u, next?⟩ := q
  dsimp only at hq hhtml hhidden hnext
  subst hnext
  have hend : u.block = true → Place.endsLine ⟨previous?, u, some t⟩ = true := fun hblock => by
    simp [Place.endsLine, hblock, hk, hth, hnesting]
  cases hq with
  | opening attrs markup hidden => exact endsLine_tag flags hhidden (hend rfl)
  | closing markup hidden => exact endsLine_tag flags hhidden (hend rfl)
  | rule markup => exact endsLine_tag flags hhidden (hend rfl)
  | code content info markup h =>
    have hcode : EndsLine "</code></pre>\n" := ⟨"</code></pre>", rfl⟩
    rcases h with rfl | rfl
    · exact hcode.append _
    · exact hcode.append _
  | html content => exact hhtml rfl

/-- What is written up to a place that follows another one of the top level, which is not a text. -/
theorem endsLine_flatMap_partsAt {r : Renderer} {ps : List Place} {q : Place}
    (hk : q.token.kind ≠ .inline) (h : EndsLine (r.renderPlace q)) :
    EndsLine (String.join (((ps ++ [q]).flatMap r.partsAt).map Prod.snd)) := by
  rw [List.flatMap_append, List.map_append, String.join_append, List.flatMap_singleton,
    join_partsAt, if_neg hk]
  exact h.append _

theorem Markdown.LineToken.block_eq (h : LineToken acceptance p t) : t.block = false := by
  cases h <;> rfl

/-- A tag that does not bring a line feed of its own stands at the start of a line. -/
theorem isLineStart_before {source : String} {superscript : Bool} {root : Node}
    {ps qs : List Place} {q : Place} (flags : Flags)
    (hflow : Flow acceptance (fun _ => true) (tokens source acceptance superscript root))
    (hplaces : places (tokens source acceptance superscript root) = ps ++ q :: qs)
    (hk : q.token.kind ≠ .inline) (hblock : q.token.block = true) (hhidden : q.token.hidden = false)
    (hnesting : q.token.nesting ≠ .closing) (hstart : q.startsLine = false) :
    IsLineStart (String.join ((ps.flatMap (Renderer.stock flags).partsAt).map Prod.snd)) := by
  rcases List.eq_nil_or_concat' ps with rfl | ⟨ps, u, rfl⟩
  · exact .inl rfl
  · obtain ⟨hprevious, hnext⟩ := placesAfter_split hplaces
    rw [List.getLast?_concat] at hprevious hnext
    have htokens := map_token_places (tokens source acceptance superscript root)
    rw [hplaces, List.map_append, List.map_append, List.map_singleton, List.map_cons,
      List.append_assoc, List.singleton_append] at htokens
    have hchain := hflow.closed.chain
    rw [← htokens, List.isChain_append_cons_cons] at hchain
    have hmem : u.token ∈ tokens source acceptance superscript root := by
      rw [← htokens]
      exact List.mem_append_right _ List.mem_cons_self
    have huk : u.token.kind ≠ .inline := fun huk => hnesting (hchain.2.1 huk)
    have huhidden : u.token.hidden = false := by
      simpa [Place.startsLine, hprevious, hblock, hnesting] using hstart
    have hu : BlockToken (fun _ => true) u.token := by
      rcases hflow.cases_of_mem hmem with hb | ⟨content, us, heq, -⟩
      · exact hb
      · exact absurd (congrArg Token.kind heq) huk
    refine .inr (endsLine_flatMap_partsAt huk ?_)
    exact endsLine_renderPlace flags hu (endsLine_htmlBlock hmem) huhidden (hnext u rfl) hk hhidden
      hnesting

/-- **Every opening or empty tag of the block structure starts a line**, in the HTML of every
document: the tag is the first of the output, or a line feed stands before it, which may be its
own. -/
theorem blockTags_startLine (flags : Flags) (source : String) (acceptance : Acceptance)
    (superscript : Bool) (root : Node) {before after : List (Token × String)} {html : String}
    (h : (Renderer.stock flags).parts (tokens source acceptance superscript root)
      = before ++ (t, html) :: after)
    (hblock : t.block = true) (hrule : stockRule? t.kind = none) (hhidden : t.hidden = false)
    (hnesting : t.nesting ≠ .closing) :
    ∃ lead feed, html = lead ++ writtenTag flags t ++ feed
      ∧ (lead = "" ∨ lead = "\n") ∧ (feed = "" ∨ feed = "\n")
      ∧ (Renderer.stock flags).render (tokens source acceptance superscript root)
        = (String.join (before.map Prod.snd) ++ lead)
          ++ (writtenTag flags t ++ (feed ++ String.join (after.map Prod.snd)))
      ∧ IsLineStart (String.join (before.map Prod.snd) ++ lead) := by
  have hflow := flow_tokens source acceptance superscript (Node.all_true root)
  have hrender : (Renderer.stock flags).render (tokens source acceptance superscript root)
      = String.join (before.map Prod.snd) ++ (html ++ String.join (after.map Prod.snd)) := by
    rw [render_eq_parts, h, List.map_append, List.map_cons, String.join_append, String.join_cons]
  rcases parts_split h with ⟨hk, ps, q, qs, hplaces, rfl, rfl, rfl⟩ | ⟨u, hu, hk, ht⟩
  · have hhtml : (Renderer.stock flags).renderPlace q
        = (if q.startsLine then "\n" else "") ++ writtenTag flags q.token
          ++ (if q.endsLine then "\n" else "") := by
      rw [← tag_eq flags hhidden, Renderer.renderPlace]
      simp only [Renderer.stock, hrule]
    refine ⟨_, _, hhtml, ?_, ?_, ?_, ?_⟩
    · split <;> simp
    · split <;> simp
    · rw [hrender, hhtml]
      simp only [String.append_assoc]
    · cases hstart : q.startsLine with
      | true => exact .inr ⟨_, rfl⟩
      | false =>
        rw [if_neg (by decide), String.append_empty]
        exact isLineStart_before flags hflow hplaces hk hblock hhidden hnesting hstart
  · -- No token of running text belongs to the block structure.
    rcases hflow.cases_of_mem hu with hb | ⟨content, us, rfl, hrun⟩
    · exact absurd hk hb.kind_ne_inline
    · have hfalse := (hrun.lineToken t ht).block_eq
      rw [hblock] at hfalse
      cases hfalse

/-- A list in an item of a tight list: its tag follows the hidden paragraph of the item. -/
theorem blockTags_startLine_nestedList :
    let ul := opening .bulletList "ul"
    let inner := Node.list none false none false
      [.listItem none false [.paragraph none [.text none "b"]]]
    let root := Node.root none [.list none false none false
      [.listItem none false [.paragraph none [.text none "a"], inner]]]
    ∃ lead rest, (lead = "" ∨ lead = "\n")
      ∧ (Renderer.stock {}).render (tokens "- a\n  - b" .lenient false root)
        = ("<ul>\n<li>a" ++ lead) ++ (writtenTag {} ul ++ rest)
      ∧ IsLineStart ("<ul>\n<li>a" ++ lead) := by
  intro ul inner root
  let li := opening .listItem "li"
  let o := { opening .paragraph "p" with hidden := true }
  let c := { closing .paragraph "p" with hidden := true }
  let li' := closing .listItem "li"
  let ul' := closing .bulletList "ul"
  have h : (Renderer.stock {}).parts (tokens "- a\n  - b" .lenient false root)
      = [(ul, "<ul>\n"), (li, "<li>"), (o, ""), (Token.text "a", "a"), (c, "")]
        ++ (ul, "\n<ul>\n") :: [(li, "<li>"), (o, ""), (Token.text "b", "b"), (c, ""),
          (li', "</li>\n"), (ul', "</ul>\n"), (li', "</li>\n"), (ul', "</ul>\n")] := by
    decide +kernel
  obtain ⟨lead, feed, -, hlead, -, hrender, hstart⟩ :=
    blockTags_startLine {} "- a\n  - b" .lenient false root h rfl rfl rfl (by decide)
  exact ⟨lead, _, hlead, hrender, hstart⟩

end MarkdownPreview
