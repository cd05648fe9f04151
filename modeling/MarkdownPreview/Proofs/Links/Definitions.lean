import Mathlib.Data.List.Basic
import MarkdownPreview.Markdown.Block

/-!
# Definitions that are not accepted

A definition whose destination is not accepted is put back as a paragraph, and a reference has no
use for it. Which definition a reference has is settled before that, though: it is the first of its
identifier, accepted or not. So a definition that is not accepted stands in the way of a later one
that is (`IsShadowed`).

Where that does not happen, a reference stands for the first definition of its identifier that is
accepted, and the document becomes the same tokens as if there were no other definitions. All that
the tokens know of the definitions is what references stand for (`block_congr`).
-/

set_option autoImplicit false

namespace MarkdownPreview.Markdown

/-- The definitions with an accepted destination. -/
def accepted (acceptance : Acceptance) (definitions : List (String × Destination)) :
    List (String × Destination) :=
  definitions.filter fun d => acceptance.admits d.2.url

/-- The first definition of an identifier that has an accepted destination, with others of the
identifier before it that have none. -/
def IsFirstAccepted (acceptance : Acceptance) (definitions : List (String × Destination))
    (identifier : String) (d : Destination) : Prop :=
  ∃ before after, definitions = before ++ (identifier, d) :: after
    ∧ acceptance.admits d.url = true
    ∧ ∀ d', (identifier, d') ∈ before → acceptance.admits d'.url = false

/-- An identifier whose first definition is not accepted, while a later one is. -/
def IsShadowed (acceptance : Acceptance) (definitions : List (String × Destination))
    (identifier : String) : Prop :=
  (∃ d, definitions.lookup identifier = some d ∧ acceptance.admits d.url = false)
    ∧ ∃ d, (identifier, d) ∈ definitions ∧ acceptance.admits d.url = true

variable {acceptance : Acceptance} {definitions : List (String × Destination)}
  {identifier : String} {d : Destination}

/-! ## What a reference stands for -/

theorem mem_of_lookup_eq_some (h : definitions.lookup identifier = some d) :
    (identifier, d) ∈ definitions := by
  obtain ⟨before, after, rfl, -⟩ := List.lookup_eq_some_iff.mp h
  exact List.mem_append_right before List.mem_cons_self

/-- The first accepted definition is found among the accepted ones. -/
theorem IsFirstAccepted.lookup_accepted (h : IsFirstAccepted acceptance definitions identifier d) :
    (accepted acceptance definitions).lookup identifier = some d := by
  obtain ⟨before, after, rfl, hd, hbefore⟩ := h
  refine List.lookup_eq_some_iff.mpr ⟨accepted acceptance before, accepted acceptance after, ?_, ?_⟩
  · rw [accepted, List.filter_append, List.filter_cons_of_pos (by exact hd), accepted, accepted]
  · intro p hp
    obtain ⟨hmem, hadmits⟩ := List.mem_filter.mp hp
    refine bne_iff_ne.mpr ?_
    rintro rfl
    rw [hbefore p.2 hmem] at hadmits
    exact Bool.false_ne_true hadmits

/-- An identifier with an accepted definition has a first one. -/
theorem exists_isFirstAccepted
    (h : ∃ d, (identifier, d) ∈ definitions ∧ acceptance.admits d.url = true) :
    ∃ d, IsFirstAccepted acceptance definitions identifier d := by
  obtain ⟨d, hmem, hd⟩ := h
  induction definitions with
  | nil => cases hmem
  | cons p definitions ih =>
    by_cases hp : p.1 = identifier ∧ acceptance.admits p.2.url = true
    · obtain ⟨rfl, hp⟩ := hp
      exact ⟨p.2, [], definitions, rfl, hp, fun d' hd' => absurd hd' List.not_mem_nil⟩
    · have hrest : (identifier, d) ∈ definitions := by
        rcases List.mem_cons.mp hmem with rfl | hrest
        · exact absurd ⟨rfl, hd⟩ hp
        · exact hrest
      obtain ⟨first, before, after, rfl, hfirst, hbefore⟩ := ih hrest
      refine ⟨first, p :: before, after, rfl, hfirst, fun d' hd' => ?_⟩
      rcases List.mem_cons.mp hd' with rfl | hd'
      · exact Bool.eq_false_iff.mpr fun hadmits => hp ⟨rfl, hadmits⟩
      · exact hbefore d' hd'

/-- Where no definition stands in the way of another, only accepted ones count. -/
theorem lookup_filter_admits (h : ¬ IsShadowed acceptance definitions identifier) :
    (definitions.lookup identifier).filter (fun d => acceptance.admits d.url)
      = ((accepted acceptance definitions).lookup identifier).filter
          fun d => acceptance.admits d.url := by
  have hkept {d : Destination} (hd : (accepted acceptance definitions).lookup identifier = some d) :
      (identifier, d) ∈ definitions ∧ acceptance.admits d.url = true :=
    List.mem_filter.mp (mem_of_lookup_eq_some hd)
  cases hfirst : definitions.lookup identifier with
  | none =>
    cases hlater : (accepted acceptance definitions).lookup identifier with
    | none => rfl
    | some d =>
      have hnone := List.lookup_eq_none_iff.mp hfirst _ (hkept hlater).1
      exact absurd hnone (by simp)
  | some d =>
    cases hd : acceptance.admits d.url with
    | true =>
      obtain ⟨before, after, heq, hbefore⟩ := List.lookup_eq_some_iff.mp hfirst
      have haccepted : IsFirstAccepted acceptance definitions identifier d :=
        ⟨before, after, heq, hd, fun d' hd' => absurd (hbefore _ hd') (by simp)⟩
      rw [haccepted.lookup_accepted]
    | false =>
      cases hlater : (accepted acceptance definitions).lookup identifier with
      | none => simp [hd]
      | some d' => exact absurd ⟨⟨d, hfirst, hd⟩, d', hkept hlater⟩ h

/-! ## Definitions matter for references only -/

/-- The setting with other definitions. -/
def Setting.withDefinitions (s : Setting) (definitions : List (String × Destination)) : Setting :=
  { s with definitions }

/-- References stand for the same with other definitions. -/
def Setting.ResolvesAlike (s : Setting) (definitions : List (String × Destination)) : Prop :=
  ∀ identifier, (s.withDefinitions definitions).resolve? identifier = s.resolve? identifier

variable {s : Setting}

mutual

theorem inline_congr (h : s.ResolvesAlike definitions) :
    ∀ (n : Node) (l : Line), inline (s.withDefinitions definitions) n l = inline s n l
  | .emphasis _ ns, l | .strong _ ns, l => by
    rw [inline, inline, inlines_congr h ns]
    rfl
  | .delete _ ns, l => by
    rw [inline, inline, inlines_congr h ns]
  | .link _ _ _ ns, l => by
    have hns := inlines_congr h ns
    unfold inline
    simp only [hns]
    rfl
  | .linkReference _ identifier ns, l => by
    have hns := inlines_congr h ns
    have hd := h identifier
    unfold inline
    simp only [hns, hd]
    rfl
  | .imageReference _ identifier _, l => by
    have hd := h identifier
    unfold inline
    rw [hd]
    rfl
  | .text .., _ | .lineBreak .., _ | .inlineCode .., _ | .html .., _ | .image .., _ | .root .., _
  | .paragraph .., _ | .heading .., _ | .blockquote .., _ | .list .., _ | .listItem .., _
  | .code .., _ | .math .., _ | .thematicBreak .., _ | .table .., _ | .tableRow .., _
  | .tableCell .., _ | .definition .., _ | .footnoteDefinition .., _ | .inlineMath .., _ => rfl

theorem inlines_congr (h : s.ResolvesAlike definitions) :
    ∀ (ns : List Node) (l : Line), inlines (s.withDefinitions definitions) ns l = inlines s ns l
  | [], _ => rfl
  | n :: ns, l => by
    rw [inlines, inlines, inline_congr h n, inlines_congr h ns]

end

theorem textToken_congr (h : s.ResolvesAlike definitions) (depth : Nat) (ns : List Node) :
    textToken (s.withDefinitions definitions) depth ns = textToken s depth ns := by
  have hns : inlineTokens (s.withDefinitions definitions) ns = inlineTokens s ns := by
    rw [inlineTokens, inlineTokens, inlines_congr h]
  rw [textToken, textToken, hns]
  rfl

theorem paragraph_congr (h : s.ResolvesAlike definitions) (depth : Nat) (hidden : Bool)
    (ns : List Node) : paragraph (s.withDefinitions definitions) depth hidden ns
      = paragraph s depth hidden ns := by
  rw [paragraph, paragraph, textToken_congr h]

theorem rowCells_congr (h : s.ResolvesAlike definitions) (depth : Nat) (columns : List Alignment)
    (e : Element) (tag : String) : ∀ (column : Nat) (ns : List Node),
      rowCells (s.withDefinitions definitions) depth columns e tag column ns
        = rowCells s depth columns e tag column ns
  | _, [] => rfl
  | column, n :: rest => by
    have hrest := rowCells_congr h depth columns e tag (column + 1) rest
    cases n with
    | tableCell _ ns => rw [rowCells, rowCells, textToken_congr h, hrest]
    | _ => exact hrest

theorem rowTokens_congr (h : s.ResolvesAlike definitions) (depth : Nat) (columns : List Alignment)
    (isHead : Bool) (ns : List Node) :
    rowTokens (s.withDefinitions definitions) depth columns isHead ns
      = rowTokens s depth columns isHead ns := by
  rw [rowTokens, rowTokens, rowCells_congr h, rowCells_congr h]

theorem tableRows_congr (h : s.ResolvesAlike definitions) (depth : Nat)
    (columns : List Alignment) : ∀ (row : Nat) (ns : List Node),
      tableRows (s.withDefinitions definitions) depth columns row ns
        = tableRows s depth columns row ns
  | _, [] => by rw [tableRows, tableRows]
  | row, n :: rest => by
    have hrest := fun row => tableRows_congr h depth columns row rest
    have hrow := fun isHead ns => rowTokens_congr h depth columns isHead ns
    unfold tableRows
    split
    · rfl
    · rename_i heq
      cases heq
      rw [hrow, hrest]
    · rename_i heq
      cases heq
      rw [hrow, hrest]
    · rename_i heq
      cases heq
      rw [hrow, hrest]
    · rename_i heq
      cases heq
      exact hrest _

mutual

/-- **All that tokens know of definitions is what references stand for.** -/
theorem block_congr (h : s.ResolvesAlike definitions) (depth : Nat) :
    ∀ n : Node, block (s.withDefinitions definitions) depth n = block s depth n
  | .root _ ns => by
    rw [block, block, blocks_congr h depth ns]
  | .paragraph _ ns => by
    rw [block, block, paragraph_congr h]
  | .heading _ level ns => by
    rw [block, block, headingTokens, headingTokens, textToken_congr h]
  | .blockquote _ ns => by
    rw [block, block, blocks_congr h (depth + 1) ns]
  | .list _ ordered start? spread ns => by
    have hitems := fun tight => items_congr h depth tight ns
    rw [block, block]
    simp only [hitems]
  | .table _ columns ns => by
    rw [block, block, tableTokens, tableTokens, tableRows_congr h]
  | .code .. | .html .. | .thematicBreak .. | .definition .. | .listItem .. | .math ..
  | .tableRow .. | .tableCell .. | .footnoteDefinition .. | .text .. | .lineBreak ..
  | .inlineCode .. | .inlineMath .. | .emphasis .. | .strong .. | .delete .. | .link ..
  | .linkReference .. | .image .. | .imageReference .. => rfl

theorem blocks_congr (h : s.ResolvesAlike definitions) (depth : Nat) :
    ∀ ns : List Node, blocks (s.withDefinitions definitions) depth ns = blocks s depth ns
  | [] => rfl
  | n :: ns => by
    rw [blocks, blocks, block_congr h depth n, blocks_congr h depth ns]

theorem items_congr (h : s.ResolvesAlike definitions) (depth : Nat) (tight : Bool) :
    ∀ ns : List Node, items (s.withDefinitions definitions) depth tight ns = items s depth tight ns
  | [] => rfl
  | n :: rest => by
    have hrest := items_congr h depth tight rest
    cases n with
    | listItem _ _ ns => rw [items, items, itemBlocks_congr h depth tight ns, hrest]
    | _ => exact congrArg₂ (· ++ ·) (block_congr h depth _) hrest

theorem itemBlocks_congr (h : s.ResolvesAlike definitions) (depth : Nat) (tight : Bool) :
    ∀ ns : List Node,
      itemBlocks (s.withDefinitions definitions) depth tight ns = itemBlocks s depth tight ns
  | [] => rfl
  | n :: rest => by
    have hrest := itemBlocks_congr h depth tight rest
    cases n with
    | paragraph _ ns => rw [itemBlocks, itemBlocks, paragraph_congr h, hrest]
    | _ => exact congrArg₂ (· ++ ·) (block_congr h depth _) hrest

end

/-! ## References in a document -/

theorem resolvesAlike_accepted (h : ∀ identifier,
    ¬ IsShadowed s.acceptance s.definitions identifier) :
    s.ResolvesAlike (accepted s.acceptance s.definitions) :=
  fun identifier => (lookup_filter_admits (h identifier)).symm

theorem resolve?_eq_some (h : ¬ IsShadowed s.acceptance s.definitions identifier)
    (hd : IsFirstAccepted s.acceptance s.definitions identifier d) :
    s.resolve? identifier = some d := by
  obtain ⟨-, -, -, hadmits, -⟩ := id hd
  rw [Setting.resolve?, lookup_filter_admits h, hd.lookup_accepted, Option.filter_some,
    if_pos hadmits]

/-- **References stand for accepted definitions.** Where only some destinations are accepted, an
identifier with an accepted definition stands for the first of these, for links and for pictures and
wherever they are, unless a definition that is not accepted is the first of all. Where there is no
such identifier, the tokens are those that the accepted definitions alone give; the others are put
back as paragraphs. -/
theorem references_resolved (source : String) (superscript : Bool) (root : Node) :
    let s : Setting := ⟨source.toList, .strict, superscript, root.definitions⟩
    (∀ identifier, (∃ d, (identifier, d) ∈ root.definitions ∧ isWebOrFragment d.url = true) →
      ¬ IsShadowed .strict root.definitions identifier →
      ∃ d, IsFirstAccepted .strict root.definitions identifier d ∧ ∀ l : Line,
        (∀ extent? ns, inline s (.linkReference extent? identifier ns) l
          = (inlines s ns (l.add (linkOpening d.url d.title? ""))).add (linkClosing ""))
        ∧ ∀ extent? alt, inline s (.imageReference extent? identifier alt) l
          = l.add (picture d.url alt d.title?))
    ∧ ((∀ identifier, ¬ IsShadowed .strict root.definitions identifier) →
      tokens source .strict superscript root
        = block (s.withDefinitions (accepted .strict root.definitions)) 0 root)
    ∧ ∀ depth extent? identifier url title?, isWebOrFragment url = false →
      block s depth (.definition extent? identifier url title?)
        = [opening .paragraph "p",
          Token.inline (String.ofList (s.slice extent?)) (addText [] (s.slice extent?)).reverse,
          closing .paragraph "p"] := by
  intro s
  refine ⟨fun identifier haccepted hshadowed => ?_, fun hshadowed => ?_, ?_⟩
  · obtain ⟨d, hd⟩ : ∃ d, IsFirstAccepted .strict root.definitions identifier d :=
      exists_isFirstAccepted haccepted
    have hresolved : s.resolve? identifier = some d := resolve?_eq_some hshadowed hd
    refine ⟨d, hd, fun l => ⟨fun extent? ns => ?_, fun extent? alt => ?_⟩⟩
    · unfold inline
      rw [hresolved]
    · unfold inline
      rw [hresolved]
  · exact (block_congr (resolvesAlike_accepted hshadowed) 0 root).symm
  · intro depth extent? identifier url title? hurl
    have hadmits : s.acceptance.admits url = false := hurl
    rw [block, definitionTokens, hadmits]
    rfl

/-- A definition that is accepted and one of the same identifier that is not behind it, and one that
is not accepted of another identifier. -/
def definedTwice : Node :=
  .root (some ⟨0, 37⟩)
    [.definition (some ⟨0, 11⟩) "a" "#y" (some "t"), .definition (some ⟨12, 20⟩) "a" "./x" none,
      .blockquote (some ⟨21, 31⟩) [.definition (some ⟨23, 31⟩) "b" "./z" none],
      .paragraph (some ⟨33, 37⟩) [.imageReference (some ⟨33, 37⟩) "a" "a"]]

theorem references_resolved_definedTwice :
    let source := "[a]: #y 't'\n[a]: ./x\n> [b]: ./z\n\n![a]"
    let s : Setting := ⟨source.toList, .strict, true, definedTwice.definitions⟩
    ((∃ d, ("a", d) ∈ definedTwice.definitions ∧ isWebOrFragment d.url = true)
      ∧ (∀ identifier, ¬ IsShadowed .strict definedTwice.definitions identifier)
      ∧ isWebOrFragment "./z" = false)
    ∧ (∀ l : Line, inline s (.imageReference none "a" "a") l = l.add (picture "#y" "a" (some "t")))
    ∧ tokens source .strict true definedTwice
      = block (s.withDefinitions [("a", ⟨"#y", some "t"⟩)]) 0 definedTwice
    ∧ block s 1 (.definition (some ⟨23, 31⟩) "b" "./z" none)
      = [opening .paragraph "p", Token.inline "[b]: ./z" [Token.text "[b]: ./z"],
        closing .paragraph "p"] := by
  intro source s
  obtain ⟨hreferences, htokens, hdefinition⟩ := references_resolved source true definedTwice
  have haccepted : ∃ d, ("a", d) ∈ definedTwice.definitions ∧ isWebOrFragment d.url = true :=
    ⟨⟨"#y", some "t"⟩, by decide, by decide⟩
  have hshadowed : ∀ identifier, ¬ IsShadowed .strict definedTwice.definitions identifier := by
    rintro identifier ⟨⟨d, hd, hno⟩, d', hd', hyes⟩
    have hmem : (identifier, d') ∈ [("a", ⟨"#y", some "t"⟩), ("a", ⟨"./x", none⟩),
        ("b", (⟨"./z", none⟩ : Destination))] := hd'
    simp only [List.mem_cons, List.not_mem_nil, or_false, Prod.mk.injEq] at hmem
    rcases hmem with ⟨rfl, -⟩ | ⟨-, rfl⟩ | ⟨-, rfl⟩
    · obtain rfl : (⟨"#y", some "t"⟩ : Destination) = d := Option.some.inj hd
      exact Bool.false_ne_true (hno.symm.trans (by decide))
    · exact Bool.false_ne_true hyes
    · exact Bool.false_ne_true hyes
  have hno : isWebOrFragment "./z" = false := by decide
  obtain ⟨d, hd, hl⟩ := hreferences "a" haccepted (hshadowed "a")
  have hfirst : d = ⟨"#y", some "t"⟩ := by
    have hlookup := hd.lookup_accepted
    exact (Option.some.inj hlookup).symm
  subst hfirst
  refine ⟨⟨haccepted, hshadowed, hno⟩, fun l => (hl l).2 none "a", htokens hshadowed, ?_⟩
  exact (hdefinition 1 _ _ _ _ hno).trans (by decide +kernel)

/-- Where a definition that is not accepted comes first, a reference is put back as it was written,
though there is an accepted definition for it. -/
theorem tokens_shadowed :
    let root : Node := .root (some ⟨0, 21⟩)
      [.definition (some ⟨0, 8⟩) "a" "./x" none, .definition (some ⟨9, 16⟩) "a" "#y" none,
        .paragraph (some ⟨18, 21⟩)
          [.linkReference (some ⟨18, 21⟩) "a" [.text (some ⟨19, 20⟩) "a"]]]
    IsFirstAccepted .strict root.definitions "a" ⟨"#y", none⟩
      ∧ tokens "[a]: ./x\n[a]: #y\n\n[a]" .strict false root
        = [opening .paragraph "p", Token.inline "[a]: ./x" [Token.text "[a]: ./x"],
          closing .paragraph "p",
          opening .paragraph "p", Token.inline "[a]" [Token.text "[a]"],
          closing .paragraph "p"] := by
  intro root
  refine ⟨⟨[("a", ⟨"./x", none⟩)], [], rfl, by decide, fun d hd => ?_⟩, by decide +kernel⟩
  obtain rfl : d = ⟨"./x", none⟩ := by simpa using hd
  decide

end MarkdownPreview.Markdown
