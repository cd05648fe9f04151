import MarkdownPreview.Proofs.Lowering.Inventory

/-!
# The tokens of a document are nested

Where tables hold nothing but rows, the tokens of a document are nested before any rule has run, and
so are those of the text of every block (`tokens_nested`): each opening token is closed by one of
the same element, with the same tag, and hidden if it is (`Matched`). The text of a block stands
directly between the two tokens of a paragraph, a heading or a cell (`Framed`).

Of the top level, all of this can be read off `Flow`. For running text, what waits to be closed
after a line is the same before and after anything `Grows` lists, and text and line breaks play no
part in it.
-/

set_option autoImplicit false

namespace MarkdownPreview.Markdown

/-- Each token's nesting fits its kind, and opening and closing tokens belong together in their
element, their tag and in being hidden. -/
def Matched (ts : List Token) : Prop :=
  (∀ t ∈ ts, t.Fits) ∧ Balanced (ts.map Token.fullBracket)

/-- The text of a block stands directly between the opening and the closing token of an element that
has text. -/
def Framed (ts : List Token) : Prop :=
  ∀ before t after, ts = before ++ t :: after → t.kind = .inline →
    ∃ e ∈ textElements, before.getLast?.map Token.kind = some (.opening e)
      ∧ after.head?.map Token.kind = some (.closing e)

variable {acceptance : Acceptance} {p : Node → Bool} {ts us : List Token} {t : Token}

/-! ## Running text -/

theorem fullBracket_of_isLoose (h : isLoose t = true) : t.fullBracket = .plain := by
  unfold Token.fullBracket
  simp only [isLoose, Bool.or_eq_true, beq_iff_eq] at h
  rcases h with (h | h) | h <;> rw [h]

/-- Text and line breaks leave waiting what waits. -/
theorem waitingAfter_firm (ts : List Token) (waiting : List (Element × String × Bool)) :
    waitingAfter waiting ((firm ts).reverse.map Token.fullBracket)
      = waitingAfter waiting (ts.reverse.map Token.fullBracket) := by
  induction ts generalizing waiting with
  | nil => rfl
  | cons t ts ih =>
    cases hl : isLoose t with
    | true =>
      rw [firm_cons_loose hl, ih, List.reverse_cons, List.map_append, waitingAfter_append,
        List.map_singleton, fullBracket_of_isLoose hl]
      cases waitingAfter waiting (ts.reverse.map Token.fullBracket) <;> simp
    | false =>
      rw [firm_cons_firm hl, List.reverse_cons, List.reverse_cons, List.map_append, List.map_append,
        waitingAfter_append, waitingAfter_append, ih]

/-- Two tokens around what leaves waiting what waits do so too. -/
theorem waitingAfter_enclosed {α : Type} [DecidableEq α] {w w' : List (Bracket α)} {a : α}
    {waiting : List α}
    (h : waitingAfter waiting w' = waitingAfter waiting (w ++ [.opening a])) :
    waitingAfter waiting (w' ++ [.closing a]) = waitingAfter waiting w := by
  rw [waitingAfter_append, h, waitingAfter_append]
  cases waitingAfter waiting w <;> simp

theorem Grows.waitingAfter {l m : Line} (hg : Grows acceptance p l m)
    (waiting : List (Element × String × Bool)) :
    MarkdownPreview.waitingAfter waiting (m.newest.reverse.map Token.fullBracket)
      = MarkdownPreview.waitingAfter waiting (l.newest.reverse.map Token.fullBracket) := by
  have hadd {l : Line} {t : Token} (ht : t.fullBracket = .plain) :
      MarkdownPreview.waitingAfter waiting ((t :: l.newest).reverse.map Token.fullBracket)
        = MarkdownPreview.waitingAfter waiting (l.newest.reverse.map Token.fullBracket) := by
    rw [List.reverse_cons, List.map_append, waitingAfter_append, List.map_singleton, ht]
    cases MarkdownPreview.waitingAfter waiting (l.newest.reverse.map Token.fullBracket) <;> simp
  induction hg with
  | refl => rfl
  | trans _ _ ihl ihm => exact ihm.trans ihl
  | push l text => rw [← waitingAfter_firm, Line.push, firm_addText, waitingAfter_firm]
  | hardBreak l => rw [← waitingAfter_firm, firm_pushHardBreak, waitingAfter_firm]
  | code l content => exact hadd rfl
  | html l value h => exact hadd rfl
  | picture l url alt title? h => exact hadd rfl
  | span e tag markup _ _ ih =>
    rw [Line.add, List.reverse_cons, List.map_append] at ih ⊢
    exact waitingAfter_enclosed ih
  | link url title? markup _ _ _ ih =>
    rw [Line.add, List.reverse_cons, List.map_append] at ih ⊢
    exact waitingAfter_enclosed ih

theorem balanced_plainText (cs : List Char) :
    Balanced ((plainText cs).map Token.fullBracket) := by
  unfold plainText
  split
  · exact Balanced.nil
  · exact Balanced.plain

theorem balanced_raisedTokens (body : List Char) :
    Balanced ((raisedTokens body).map Token.fullBracket) :=
  Balanced.plain.enclose (Element.sup, "sup", false)

theorem balanced_raiseText (text : String) :
    Balanced ((raiseText text).map Token.fullBracket) := by
  have hruns (runs : List (List Char × List Char)) :
      Balanced ((runs.flatMap fun run => raisedTokens run.1 ++ plainText run.2).map
        Token.fullBracket) := by
    induction runs with
    | nil => exact Balanced.nil
    | cons run runs ih =>
      rw [List.flatMap_cons, List.map_append, List.map_append]
      exact ((balanced_raisedTokens _).append (balanced_plainText _)).append ih
  unfold raiseText
  dsimp only
  rw [List.map_append]
  exact (balanced_plainText _).append (hruns _)

/-- A text with raised runs leaves waiting what waits, as the text does. -/
theorem waitingAfter_raiseAll (ts : List Token) (waiting : List (Element × String × Bool)) :
    waitingAfter waiting ((raiseAll ts).map Token.fullBracket)
      = waitingAfter waiting (ts.map Token.fullBracket) := by
  induction ts generalizing waiting with
  | nil => rfl
  | cons t ts ih =>
    rw [raiseAll, List.flatMap_cons, ← raiseAll, List.map_append, waitingAfter_append,
      List.map_cons]
    split
    · rename_i hraise
      have hplain : t.fullBracket = .plain := fullBracket_of_isLoose (isLoose_of_kind hraise.1)
      rw [(balanced_raiseText _).waitingAfter, Option.bind_some, ih, hplain, waitingAfter_plain]
    · rw [List.map_singleton, waitingAfter_cons, waitingAfter_cons]
      cases Bracket.step waiting t.fullBracket with
      | none => rfl
      | some waiting => exact ih waiting

theorem IsRun.matched (h : IsRun acceptance p ts) : Matched ts := by
  refine ⟨fun t ht => (h.lineToken t ht).fits, ?_⟩
  obtain ⟨l, hg, hts⟩ := h
  have hl : Balanced (l.newest.reverse.map Token.fullBracket) := hg.waitingAfter []
  rcases hts with rfl | rfl
  · exact hl
  · rw [Balanced, waitingAfter_raiseAll]
    exact hl

/-! ## Blocks -/

theorem Flow.fits (h : Flow acceptance p ts) : ∀ t ∈ ts, t.Fits := by
  intro t ht
  rcases h.cases_of_mem ht with hb | ⟨content, us, rfl, -⟩
  · exact hb.fits
  · rfl

theorem Border.balanced {e : Element} {o c : Token} (hb : Border p e o c)
    (h : Balanced (ts.map Token.fullBracket)) :
    Balanced ((o :: ts ++ [c]).map Token.fullBracket) := by
  have ho : o.fullBracket = .opening (e, o.tag, o.hidden) := by
    unfold Token.fullBracket
    rw [hb.kind_opening]
  have hc : c.fullBracket = .closing (e, o.tag, o.hidden) := by
    unfold Token.fullBracket
    rw [hb.kind_closing, hb.tag_eq, hb.hidden_eq]
  rw [List.map_append, List.map_cons, List.map_singleton, ho, hc]
  exact h.enclose (e, o.tag, o.hidden)

/-- The top level is balanced if no table has anything but rows. -/
theorem Flow.balanced (h : Flow acceptance p ts) (hp : ¬ AllowsStray p) :
    Balanced (ts.map Token.fullBracket) := by
  induction h with
  | nil => exact Balanced.nil
  | append _ _ ihts ihus =>
    rw [List.map_append]
    exact ihts.append ihus
  | @single t _ hn =>
    have hplain : t.fullBracket = .plain := by
      unfold Token.fullBracket
      cases hk : t.kind <;> simp_all [Kind.nesting]
    rw [List.map_singleton, hplain]
    exact Balanced.plain
  | @text _ _ _ ts content _ hb _ =>
    have hinner : Balanced ([Token.inline content ts].map Token.fullBracket) := Balanced.plain
    exact hb.balanced hinner
  | enclose hb _ ih => exact hb.balanced ih
  | stray _ hstray => exact absurd hstray hp

theorem Framed.nil : Framed [] := fun before t after h => by
  cases before <;> cases h

theorem Framed.single (h : t.kind ≠ .inline) : Framed [t] := by
  intro before u after heq hu
  have hmem : u ∈ [t] := heq ▸ List.mem_append_right before List.mem_cons_self
  rw [List.mem_singleton.mp hmem] at hu
  exact absurd hu h

theorem Framed.append (hts : Framed ts) (hus : Framed us) : Framed (ts ++ us) := by
  intro before t after heq ht
  rcases List.append_eq_append_iff.mp heq with ⟨more, rfl, hmore⟩ | ⟨rest, hrest, hafter⟩
  · -- In the second list: the token before it there is the one before it in both.
    obtain ⟨e, he, ho, hc⟩ := hus more t after hmore ht
    refine ⟨e, he, ?_, hc⟩
    obtain ⟨o, hlast, hok⟩ := Option.map_eq_some_iff.mp ho
    rw [List.getLast?_append, hlast, Option.some_or, Option.map_some, hok]
  · cases rest with
    | nil =>
      -- First in the second list, where nothing precedes it.
      obtain ⟨e, he, ho, hc⟩ := hus [] t after hafter.symm ht
      cases ho
    | cons u rest =>
      rw [List.cons_append, List.cons.injEq] at hafter
      obtain ⟨rfl, rfl⟩ := hafter
      obtain ⟨e, he, ho, hc⟩ := hts before t rest hrest ht
      refine ⟨e, he, ho, ?_⟩
      obtain ⟨c, hhead, hck⟩ := Option.map_eq_some_iff.mp hc
      rw [List.head?_append, hhead, Option.some_or, Option.map_some, hck]

theorem Flow.framed (h : Flow acceptance p ts) : Framed ts := by
  induction h with
  | nil => exact Framed.nil
  | append _ _ ihts ihus => exact ihts.append ihus
  | single h _ | stray h _ => exact Framed.single h.kind_ne_inline
  | enclose hb _ ih =>
    exact ((Framed.single hb.opening.kind_ne_inline).append ih).append
      (Framed.single hb.closing.kind_ne_inline)
  | @text e o c ts content he hb _ =>
    intro before t after heq ht
    match before, heq with
    | [], heq =>
      cases heq
      exact absurd ht hb.opening.kind_ne_inline
    | [o], heq =>
      cases heq
      exact ⟨e, he, congrArg some hb.kind_opening, congrArg some hb.kind_closing⟩
    | [o, i], heq =>
      cases heq
      exact absurd ht hb.closing.kind_ne_inline
    | _ :: _ :: _ :: _, heq => simp at heq

/-- **Lowering yields nested tokens**, and blocks with text whose own tokens are nested, as long as
tables hold nothing but rows. -/
theorem tokens_nested (source : String) (acceptance : Acceptance) (superscript : Bool) {root : Node}
    (h : root.all Node.hasOnlyRows = true) :
    Matched (tokens source acceptance superscript root)
      ∧ Framed (tokens source acceptance superscript root)
      ∧ ∀ t ∈ tokens source acceptance superscript root, t.kind = .inline →
        ∃ us, t.children = some us ∧ Matched us := by
  have hflow := flow_tokens source acceptance superscript h
  refine ⟨⟨hflow.fits, hflow.balanced not_allowsStray⟩, hflow.framed, ?_⟩
  intro t ht hk
  rcases hflow.cases_of_mem ht with hb | ⟨content, us, rfl, hrun⟩
  · exact absurd hk hb.kind_ne_inline
  · exact ⟨us, rfl, hrun.matched⟩

/-- A quote with a table of a head and two more rows. -/
def quotedTable : Node :=
  let row (text : String) : Node :=
    .tableRow none [.tableCell none [.strong none [.text none text]]]
  .root none [.blockquote none [.table none [.center] [row "one ^up^", row "two", row "three"]]]

theorem quotedTable_nested : quotedTable.all Node.hasOnlyRows = true ∧
    Matched (tokens "" .strict true quotedTable) ∧ Framed (tokens "" .strict true quotedTable)
      ∧ ∀ t ∈ tokens "" .strict true quotedTable, t.kind = .inline →
        ∃ us, t.children = some us ∧ Matched us := by
  have h : quotedTable.all Node.hasOnlyRows = true := by decide
  exact ⟨h, tokens_nested "" .strict true h⟩

-- Of a table that holds something else, the body may be closed without having been opened.
example : ¬ Balanced ((tokens "" .strict true
    (.table none [] [.tableRow none [], .thematicBreak none])).map Token.fullBracket) := by decide

end MarkdownPreview.Markdown
