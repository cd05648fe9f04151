import MarkdownPreview.Proofs.Markup.Grammar
import MarkdownPreview.Proofs.Nesting.Bracket
import MarkdownPreview.Proofs.Text.Scan

/-!
# Tags and quoted values

A reader of HTML takes a tag from its `<` to the first `>` that does not stand in the quotes of a value
(`quotedTag`). What it sees of a piece of HTML are the characters of the text and the tags between them,
of which only the names count here (`read`): the tags of an element are brackets, and one of an element
without content is neither opened nor closed.

HTML made of sound pieces is seen as the pieces are meant (`Reads.read_eq`): a text as its characters,
a tag as one tag, whatever its values are. So what is seen can be put together from what is seen of the
parts, and trimming takes characters off its end.
-/

set_option autoImplicit false

namespace MarkdownPreview.Html

open Text

/-! ## Seeing tags -/

/-- What stands in a tag up to the `>` that ends it; `quote?` is the quote around the value that is
being read. -/
def tagBody? : (quote? : Option Char) → List Char → Option (List Char)
  | _, [] => none
  | some q, c :: cs => (tagBody? (if c = q then none else some q) cs).map (c :: ·)
  | none, c :: cs =>
    if c = '>' then some []
    else (tagBody? (if c = '"' ∨ c = '\'' then some c else none) cs).map (c :: ·)

/-- Recognises a tag and reads what stands between its angle brackets. -/
def quotedTag : Recogniser Char (List Char) := fun _ cs =>
  match cs with
  | '<' :: cs => (tagBody? none cs).map fun tag => ⟨tag, tag.length + 1⟩
  | _ => none

/-- The elements that have no content and are not closed. -/
def voidNames : List String := ["br", "hr", "img"]

/-- A tag that opens an element, if that can be closed. -/
def openingBracket (name : String) : Bracket String :=
  if name ∈ voidNames then .plain else .opening name

/-- What a tag does to the nesting. -/
def tagBracket : List Char → Bracket String
  | '/' :: name => .closing (String.ofList name)
  | tag => openingBracket (String.ofList (tag.takeWhile (· != ' ')))

/-- What is seen of a piece of HTML: characters of text, and tags. -/
abbrev Seen : Type := List (Char ⊕ Bracket String)

def read (html : String) : Seen := (scan quotedTag html.toList).map (Sum.map id tagBracket)

/-- The tags that are seen. -/
def Seen.tags (seen : Seen) : List (Bracket String) := seen.filterMap Sum.getRight?

/-- The text that is seen when the tags are left out. -/
def Seen.text (seen : Seen) : List Char := seen.filterMap Sum.getLeft?

section

variable (seen seen' : Seen)

@[simp] theorem Seen.tags_nil : Seen.tags [] = [] := rfl

@[simp] theorem Seen.text_nil : Seen.text [] = [] := rfl

@[simp] theorem Seen.tags_char (c : Char) : Seen.tags (.inl c :: seen) = seen.tags := rfl

@[simp] theorem Seen.text_char (c : Char) : Seen.text (.inl c :: seen) = c :: seen.text := rfl

@[simp] theorem Seen.tags_tag (tag : Bracket String) :
    Seen.tags (.inr tag :: seen) = tag :: seen.tags := rfl

@[simp] theorem Seen.text_tag (tag : Bracket String) : Seen.text (.inr tag :: seen) = seen.text := rfl

@[simp] theorem Seen.tags_append : Seen.tags (seen ++ seen') = seen.tags ++ seen'.tags :=
  List.filterMap_append

@[simp] theorem Seen.text_append : Seen.text (seen ++ seen') = seen.text ++ seen'.text :=
  List.filterMap_append

@[simp] theorem Seen.tags_map_inl (cs : List Char) : Seen.tags (cs.map .inl) = [] := by
  simp [Seen.tags, List.filterMap_map, Function.comp_def]

theorem Seen.mem_tags {tag : Bracket String} : tag ∈ seen.tags ↔ .inr tag ∈ seen := by
  simp [Seen.tags, List.mem_filterMap, Sum.getRight?_eq_some_iff]

theorem Seen.tags_intercalate (c : Char) :
    ∀ seens : List Seen, Seen.tags ([.inl c].intercalate seens) = seens.flatMap Seen.tags
  | [] => rfl
  | [_] => by simp
  | _ :: next :: seens => by
    have ih := Seen.tags_intercalate c (next :: seens)
    simp [List.intercalate_cons_cons, ih]

theorem Seen.text_intercalate (c : Char) :
    ∀ seens : List Seen, Seen.text ([.inl c].intercalate seens) = [c].intercalate (seens.map Seen.text)
  | [] => rfl
  | [_] => by simp
  | _ :: next :: seens => by
    have ih := Seen.text_intercalate c (next :: seens)
    simp only [List.map_cons] at ih
    simp [List.intercalate_cons_cons, ih]

end

/-! ## Tags as they are written -/

variable {q c : Char} {cs rest : List Char}

/-- Neither the end of a tag nor the start of a value. -/
def isBare (c : Char) : Bool := c != '>' && c != '"' && c != '\''

theorem tagBody?_bare (h : ∀ c ∈ cs, isBare c = true) :
    tagBody? none (cs ++ rest) = (tagBody? none rest).map (cs ++ ·) := by
  induction cs with
  | nil => simp
  | cons c cs ih =>
    rw [List.forall_mem_cons] at h
    obtain ⟨hc, hcs⟩ := h
    simp only [isBare, Bool.and_eq_true, bne_iff_ne, ne_eq] at hc
    obtain ⟨⟨hend, hdouble⟩, hsingle⟩ := hc
    simp only [List.cons_append, tagBody?, hend, hdouble, hsingle, if_false, or_self, ih hcs,
      Option.map_map]
    rfl

theorem tagBody?_value (h : q ∉ cs) :
    tagBody? (some q) (cs ++ q :: rest) = (tagBody? none rest).map (cs ++ q :: ·) := by
  induction cs with
  | nil => simp [tagBody?]
  | cons c cs ih =>
    rw [List.mem_cons, not_or] at h
    have hne : c ≠ q := fun hc => h.1 hc.symm
    simp only [List.cons_append, tagBody?, hne, if_false, ih h.2, Option.map_map]
    rfl

/-- The names of tags and attributes are written without anything that could end them. -/
theorem isBare_of_mem_names {name : String} (h : name ∈ tagNames ++ attributeNames) :
    ∀ c ∈ name.toList, isBare c = true := by
  have hall : ((tagNames ++ attributeNames).all fun name => name.toList.all isBare) = true := by decide
  exact List.all_eq_true.mp (List.all_eq_true.mp hall name h)

theorem tagBody?_attribute {a : Attribute} (ha : a.Sound) :
    tagBody? none (a.chars ++ rest) = (tagBody? none rest).map (a.chars ++ ·) := by
  have hname := isBare_of_mem_names (List.mem_append_right tagNames ha.name)
  have hbare : ∀ c ∈ ' ' :: a.name.toList ++ ['='], isBare c = true := by
    simpa [or_imp, forall_and] using ⟨by decide, hname, by decide⟩
  have hsplit : a.chars ++ rest
      = (' ' :: a.name.toList ++ ['=']) ++ a.quote :: (a.value ++ a.quote :: rest) := by
    simp [Attribute.chars]
  have hquote : tagBody? none (a.quote :: (a.value ++ a.quote :: rest))
      = (tagBody? (some a.quote) (a.value ++ a.quote :: rest)).map (a.quote :: ·) := by
    rcases ha.quote with hq | hq <;> simp [tagBody?, hq]
  rw [hsplit, tagBody?_bare hbare, hquote, tagBody?_value ha.unquoted, Option.map_map, Option.map_map]
  congr 1
  funext tail
  simp [Attribute.chars]

theorem tagBody?_attributes {attrs : List Attribute} (ha : ∀ a ∈ attrs, a.Sound) :
    tagBody? none (attrs.flatMap Attribute.chars ++ rest)
      = (tagBody? none rest).map (attrs.flatMap Attribute.chars ++ ·) := by
  induction attrs with
  | nil => simp
  | cons a attrs ih =>
    rw [List.forall_mem_cons] at ha
    rw [List.flatMap_cons, List.append_assoc, tagBody?_attribute ha.1, ih ha.2, Option.map_map]
    congr 1
    funext tail
    simp

theorem steady_quotedTag : Steady quotedTag := fun _ _ => rfl

theorem scan_quotedTag {tag : List Char} (h : tagBody? none (tag ++ '>' :: rest) = some tag) :
    scan quotedTag ('<' :: (tag ++ '>' :: rest)) = .inr tag :: scan quotedTag rest := by
  have hit : quotedTag true ('<' :: (tag ++ '>' :: rest)) = some ⟨tag, tag.length + 1⟩ := by
    simp [quotedTag, h]
  have hskip : (tag ++ '>' :: rest).drop (tag.length + 1) = rest := by
    rw [← List.drop_drop, List.drop_left, List.drop_succ_cons, List.drop_zero]
  rw [steady_quotedTag.scan_hit hit, hskip]

theorem scan_unquoted (h : '<' ∉ cs) :
    scan quotedTag (cs ++ rest) = cs.map .inl ++ scan quotedTag rest := by
  induction cs with
  | nil => rfl
  | cons c cs ih =>
    rw [List.mem_cons, not_or] at h
    have hmiss : quotedTag true (c :: (cs ++ rest)) = none := by
      unfold quotedTag
      split
      · rename_i heq
        exact absurd (List.cons.inj heq).1.symm h.1
      · rfl
    rw [List.cons_append, steady_quotedTag.scan_miss hmiss, ih h.2]
    rfl

/-! ## Pieces -/

/-- What is meant to be seen of a piece. -/
def Piece.seen : Piece → Seen
  | .text cs => cs.map .inl
  | .opening name _ _ => [.inr (openingBracket name)]
  | .closing name => [.inr (.closing name)]

/-- What an opening tag has between its angle brackets. -/
def openingBody (name : String) (attrs : List Attribute) (slash : Bool) : List Char :=
  name.toList ++ (attrs.flatMap Attribute.chars ++ if slash then [' ', '/'] else [])

theorem tagBody?_openingBody {name : String} {attrs : List Attribute} (slash : Bool)
    (hn : name ∈ tagNames) (ha : ∀ a ∈ attrs, a.Sound) :
    tagBody? none (openingBody name attrs slash ++ '>' :: rest)
      = some (openingBody name attrs slash) := by
  have hname := isBare_of_mem_names (List.mem_append_left attributeNames hn)
  have hslash : ∀ c ∈ (if slash then [' ', '/'] else []), isBare c = true := by
    cases slash <;> simp [isBare]
  have hend : tagBody? none ('>' :: rest) = some [] := by simp [tagBody?]
  rw [openingBody, List.append_assoc, List.append_assoc, tagBody?_bare hname, tagBody?_attributes ha,
    tagBody?_bare hslash, hend]
  simp

theorem tagBracket_of_head?_ne {tag : List Char} (h : tag.head? ≠ some '/') :
    tagBracket tag = openingBracket (String.ofList (tag.takeWhile (· != ' '))) := by
  unfold tagBracket
  split
  · exact absurd rfl h
  · rfl

theorem tagBracket_openingBody {name : String} (attrs : List Attribute) (slash : Bool)
    (hn : name ∈ tagNames) : tagBracket (openingBody name attrs slash) = openingBracket name := by
  have hall : (tagNames.all fun name =>
      name.toList ≠ [] && name.toList.all fun c => c ≠ '/' && c ≠ ' ') = true := by decide
  have hname := List.all_eq_true.mp hall name hn
  rw [Bool.and_eq_true, decide_eq_true_iff, List.all_eq_true] at hname
  obtain ⟨hne, hletters⟩ := hname
  simp only [Bool.and_eq_true, decide_eq_true_iff] at hletters
  have hhead : (openingBody name attrs slash).head? ≠ some '/' := by
    obtain ⟨c, cs, hcs⟩ := List.exists_cons_of_ne_nil hne
    have hc : c ≠ '/' := (hletters c (by simp [hcs])).1
    simpa [openingBody, hcs] using hc
  have hrest : (attrs.flatMap Attribute.chars ++ if slash then [' ', '/'] else []).takeWhile
      (· != ' ') = [] := by
    cases attrs with
    | nil => cases slash <;> rfl
    | cons a attrs => rfl
  rw [tagBracket_of_head?_ne hhead, openingBody,
    List.takeWhile_append_of_pos fun c hc => by simpa using (hletters c hc).2, hrest, List.append_nil,
    String.ofList_toList]

theorem read_piece {p : Piece} (hp : p.Sound) (rest : List Char) :
    (scan quotedTag (p.chars ++ rest)).map (Sum.map id tagBracket)
      = p.seen ++ (scan quotedTag rest).map (Sum.map id tagBracket) := by
  cases p with
  | text cs =>
    rw [Piece.chars, scan_unquoted hp, List.map_append, Piece.seen, List.map_map]
    rfl
  | opening name attrs slash =>
    have hsplit : (Piece.opening name attrs slash).chars ++ rest
        = '<' :: (openingBody name attrs slash ++ '>' :: rest) := by
      simp [Piece.chars, openingBody]
    rw [hsplit, scan_quotedTag (tagBody?_openingBody slash hp.1 hp.2), List.map_cons, Sum.map_inr,
      tagBracket_openingBody attrs slash hp.1]
    rfl
  | closing name =>
    have hbare : ∀ c ∈ '/' :: name.toList, isBare c = true := by
      have hname := isBare_of_mem_names (List.mem_append_left attributeNames hp)
      exact List.forall_mem_cons.mpr ⟨by decide, hname⟩
    have hbody : tagBody? none ('/' :: name.toList ++ '>' :: rest) = some ('/' :: name.toList) := by
      rw [tagBody?_bare hbare]
      simp [tagBody?]
    have hsplit : (Piece.closing name).chars ++ rest
        = '<' :: ('/' :: name.toList ++ '>' :: rest) := by
      simp [Piece.chars]
    have hbracket : tagBracket ('/' :: name.toList) = .closing name := by
      rw [tagBracket, String.ofList_toList]
    rw [hsplit, scan_quotedTag hbody, List.map_cons, Sum.map_inr, hbracket]
    rfl

/-! ## HTML made of sound pieces -/

/-- A piece of HTML is made of sound pieces, and `seen` is what is meant to be seen of them. -/
def Reads (html : String) (seen : Seen) : Prop :=
  ∃ pieces : List Piece, (∀ p ∈ pieces, p.Sound) ∧ html.toList = pieces.flatMap Piece.chars
    ∧ pieces.flatMap Piece.seen = seen

namespace Reads

variable {html html' : String} {seen seen' : Seen}

/-- **What is meant is what is seen.** -/
theorem read_eq (h : Reads html seen) : read html = seen := by
  obtain ⟨pieces, hsound, hhtml, rfl⟩ := h
  rw [read, hhtml]
  clear hhtml
  induction pieces with
  | nil => rfl
  | cons p pieces ih =>
    rw [List.forall_mem_cons] at hsound
    rw [List.flatMap_cons, List.flatMap_cons, read_piece hsound.1, ih hsound.2]

/-- Every `<` starts a tag. -/
theorem bracket_not_mem (h : Reads html seen) : '<' ∉ seen.text := by
  obtain ⟨pieces, hsound, -, rfl⟩ := h
  intro hmem
  obtain ⟨item, hitem, hleft⟩ := List.mem_filterMap.mp hmem
  obtain ⟨p, hp, hpseen⟩ := List.mem_flatMap.mp hitem
  have hsome : item = .inl '<' := by
    cases item with
    | inl c => rw [← Option.some.inj hleft]
    | inr b => cases hleft
  rw [hsome] at hpseen
  cases p with
  | text cs =>
    obtain ⟨c, hc, heq⟩ := List.mem_map.mp hpseen
    rw [Sum.inl.inj heq] at hc
    exact hsound (.text cs) hp hc
  | opening name attrs slash => cases List.mem_singleton.mp hpseen
  | closing name => cases List.mem_singleton.mp hpseen

theorem isMarkup (h : Reads html seen) : IsMarkup html := by
  obtain ⟨pieces, hsound, hhtml, -⟩ := h
  exact ⟨pieces, hsound, hhtml⟩

theorem piece (p : Piece) (hp : p.Sound) (h : html.toList = p.chars) : Reads html p.seen :=
  ⟨[p], List.forall_mem_singleton.mpr hp, by rw [h, List.flatMap_singleton], by simp⟩

theorem text (h : '<' ∉ html.toList) : Reads html (html.toList.map .inl) :=
  piece (.text html.toList) h rfl

theorem append (h : Reads html seen) (h' : Reads html' seen') : Reads (html ++ html') (seen ++ seen') := by
  obtain ⟨ps, hps, hp, rfl⟩ := h
  obtain ⟨qs, hqs, hq, rfl⟩ := h'
  refine ⟨ps ++ qs, fun p hp => (List.mem_append.mp hp).elim (hps p) (hqs p), ?_, ?_⟩
  · rw [String.toList_append, hp, hq, List.flatMap_append]
  · rw [List.flatMap_append]

theorem empty : Reads "" [] := text (by decide)

theorem opening (name : String) (attrs : List Attribute) (hn : name ∈ tagNames)
    (ha : ∀ a ∈ attrs, a.Sound) (h : html.toList = (Piece.opening name attrs false).chars) :
    Reads html [.inr (openingBracket name)] :=
  piece (.opening name attrs false) ⟨hn, ha⟩ h

theorem closing (name : String) (hn : name ∈ tagNames)
    (h : html.toList = '<' :: '/' :: name.toList ++ ['>']) : Reads html [.inr (.closing name)] :=
  piece (.closing name) hn h

theorem flatMap {α : Type} {f : α → List Char} {g : α → Seen} {xs : List α}
    (h : ∀ x ∈ xs, Reads (String.ofList (f x)) (g x)) :
    Reads (String.ofList (xs.flatMap f)) (xs.flatMap g) := by
  induction xs with
  | nil => exact empty
  | cons x xs ih =>
    rw [List.forall_mem_cons] at h
    rw [List.flatMap_cons, List.flatMap_cons, String.ofList_append]
    exact h.1.append (ih h.2)

theorem intercalate {separator : String} (hs : Reads separator seen) :
    ∀ {parts : List String} {seens : List Seen}, List.Forall₂ Reads parts seens →
      Reads (separator.intercalate parts) (seen.intercalate seens)
  | _, _, .nil => by simpa using empty
  | _, _, .cons h .nil => by simpa using h
  | _, _, .cons h (.cons h' hrest) => by
    rw [String.intercalate_cons_cons, List.intercalate_cons_cons]
    exact (h.append hs).append (intercalate hs (.cons h' hrest))

end Reads

/-! ## Trimming -/

/-- Whether what is seen is a blank of the text. -/
def isSeenBlank : Char ⊕ Bracket String → Bool := Sum.elim isBlank fun _ => false

/-- What is seen, without the blanks at its end. -/
def Seen.trimEnd (seen : Seen) : Seen := dropEndWhile isSeenBlank seen

theorem Seen.tags_trimEnd (seen : Seen) : seen.trimEnd.tags = seen.tags := by
  induction seen using List.reverseRecOn with
  | nil => rfl
  | append_singleton seen item ih =>
    rw [Seen.trimEnd, dropEndWhile_concat]
    split
    · rename_i hblank
      cases item with
      | inl c =>
        rw [Seen.tags_append]
        exact ih.trans (List.append_nil _).symm
      | inr b => cases hblank
    · rfl

/-- Blanks that are trimmed off what is seen would be trimmed off its text too. -/
theorem Seen.trimEnd_text_trimEnd (seen : Seen) :
    Text.trimEnd seen.trimEnd.text = Text.trimEnd seen.text := by
  induction seen using List.reverseRecOn with
  | nil => rfl
  | append_singleton seen item ih =>
    rw [Seen.trimEnd, dropEndWhile_concat]
    split
    · rename_i hblank
      cases item with
      | inl c =>
        have htext : Seen.text [(.inl c : Char ⊕ Bracket String)] = [c] := rfl
        have hc : isBlank c = true := hblank
        rw [Seen.text_append, htext, Text.trimEnd, Text.trimEnd, dropEndWhile_concat, if_pos hc]
        exact ih
      | inr b => cases hblank
    · rfl

theorem Reads.trimEnd {html : String} {seen : Seen} (h : Reads html seen) :
    Reads (String.ofList (Text.trimEnd html.toList)) seen.trimEnd := by
  obtain ⟨pieces, hsound, hhtml, rfl⟩ := h
  rw [hhtml]
  clear hhtml
  induction pieces using List.reverseRecOn with
  | nil => exact empty
  | append_singleton pieces p ih =>
    have hpieces : ∀ p ∈ pieces, p.Sound := fun q hq => hsound q (List.mem_append_left _ hq)
    have hp : p.Sound := hsound p (List.mem_append_right _ List.mem_cons_self)
    -- A tag ends in a character that stays, and nothing before it is trimmed.
    have htag (hchars : dropEndWhile isBlank p.chars = p.chars) (hne : p.chars ≠ [])
        {b : Bracket String} (hseen : p.seen = [.inr b]) :
        Reads (String.ofList (Text.trimEnd ((pieces ++ [p]).flatMap Piece.chars)))
          (Seen.trimEnd ((pieces ++ [p]).flatMap Piece.seen)) := by
      refine ⟨pieces ++ [p], hsound, ?_, ?_⟩
      · rw [String.toList_ofList, List.flatMap_append, List.flatMap_singleton, Text.trimEnd,
          dropEndWhile_append, hchars, if_neg (by simpa using hne)]
      · rw [List.flatMap_append, List.flatMap_singleton, hseen, Seen.trimEnd, dropEndWhile_concat]
        rfl
    cases p with
    | opening name attrs slash => exact htag (dropEndWhile_tag _) (by simp [Piece.chars]) rfl
    | closing name => exact htag (dropEndWhile_tag _) (by simp [Piece.chars]) rfl
    | text cs =>
      have hseen : dropEndWhile isSeenBlank (cs.map .inl) = (dropEndWhile isBlank cs).map .inl :=
        dropEndWhile_map Sum.inl isSeenBlank cs
      rw [List.flatMap_append, List.flatMap_append, List.flatMap_singleton, List.flatMap_singleton,
        Text.trimEnd, Seen.trimEnd, dropEndWhile_append, dropEndWhile_append, Piece.chars, Piece.seen,
        hseen, List.isEmpty_map]
      split
      · exact ih hpieces
      · refine ⟨pieces ++ [.text (dropEndWhile isBlank cs)], fun q hq => ?_, ?_, ?_⟩
        · rcases List.mem_append.mp hq with hq | hq
          · exact hpieces q hq
          · obtain ⟨n, hn⟩ := exists_dropEndWhile_eq_take isBlank cs
            rw [List.mem_singleton.mp hq, hn]
            exact fun hb => hp (List.mem_of_mem_take hb)
        · rw [String.toList_ofList, List.flatMap_append, List.flatMap_singleton, Piece.chars]
        · rw [List.flatMap_append, List.flatMap_singleton, Piece.seen]

end MarkdownPreview.Html
