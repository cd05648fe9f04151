import MarkdownPreview.Note
import MarkdownPreview.Proofs.Nesting.Rules

/-!
# What a note keeps

The tags of a note take the places of its first and its last token, and of these only that text is kept
which stands next to a mark (`wrap_ends`). So nothing is lost if the marks stand where the source
has them, at the start of the first token and at the end of the last one (`Marked`): between the tags
are the old tokens without the marks, and without a line break behind the first (`notes_keep_text`).

The marks do not always stand there. The content of a block follows suit when comments are taken out of
it, but complete comments stay in its texts; one that stands behind the closing mark hides it, and
the closing tag takes the place of a whole text (`hidden_mark_loses_text`).
-/

set_option autoImplicit false

namespace MarkdownPreview

namespace Note

variable {kind : NoteKind} {t first last : Token} {ts inner middle : List Token}
  {cs front back body : List Char}

/-! ## What is a note -/

theorem isNoteOf_iff : isNoteOf cs kind = true
    ↔ ∃ body, body ≠ [] ∧ cs = startMark kind ++ body ++ endMark := by
  unfold isNoteOf
  constructor
  · intro h
    split at h
    · rename_i rest hstart
      rw [Bool.and_eq_true, List.isSuffixOf_iff_suffix, decide_eq_true_iff] at h
      obtain ⟨⟨body, rfl⟩, hlong⟩ := h
      have hbody : body ≠ [] := by
        rintro rfl
        exact absurd hlong (Nat.lt_irrefl _)
      refine ⟨body, hbody, ?_⟩
      rw [List.append_assoc, List.isPrefixOf?_eq_some_iff_append_eq.mp hstart]
    · cases h
  · rintro ⟨body, hbody, rfl⟩
    have hstart : (startMark kind).isPrefixOf? (startMark kind ++ body ++ endMark)
        = some (body ++ endMark) :=
      List.isPrefixOf?_eq_some_iff_append_eq.mpr (List.append_assoc _ _ _).symm
    have hlong := List.length_pos_of_ne_nil hbody
    simp only [hstart, Bool.and_eq_true, List.isSuffixOf_iff_suffix, decide_eq_true_iff]
    refine ⟨List.suffix_append body endMark, ?_⟩
    rw [List.length_append]
    omega

/-- No mark of a kind starts with that of another. -/
theorem kind_eq_of_startMark {kind' : NoteKind} (h : startMark kind <+: startMark kind') :
    kind = kind' := by
  cases kind <;> cases kind' <;> first | rfl | exact absurd h (by decide)

theorem kindOf?_eq_some_iff {text : String} : kindOf? text = some kind
    ↔ ∃ body, body ≠ [] ∧ text.toList = startMark kind ++ body ++ endMark := by
  rw [← isNoteOf_iff]
  refine ⟨fun h => List.find?_some h, fun h => ?_⟩
  have hmem : kind ∈ NoteKind.all := by cases kind <;> decide
  cases hfind : kindOf? text with
  | none => exact absurd h (List.find?_eq_none.mp hfind kind hmem)
  | some kind' =>
    obtain ⟨body, -, hbody⟩ := isNoteOf_iff.mp h
    obtain ⟨body', -, hbody'⟩ := isNoteOf_iff.mp (List.find?_some hfind)
    rw [List.append_assoc] at hbody hbody'
    have hstart : startMark kind <+: text.toList := ⟨_, hbody.symm⟩
    have hstart' : startMark kind' <+: text.toList := ⟨_, hbody'.symm⟩
    -- Both marks start the text, so one of them starts with the other.
    rcases List.prefix_or_prefix_of_prefix hstart hstart' with hle | hle
    · rw [kind_eq_of_startMark hle]
    · rw [kind_eq_of_startMark hle]

/-! ## What the tags leave of the first and the last token -/

/-- A text, unless it is empty. -/
def textOf (cs : List Char) : List Token := if cs = [] then [] else [Token.text (String.ofList cs)]

/-- The text of the first token that stands behind the opening mark. -/
def behindMark (kind : NoteKind) (first : Token) : List Char :=
  (if first.kind = .text then (startMark kind).isPrefixOf? first.content.toList else none).getD []

/-- The text of the last token that stands before the closing mark. -/
def beforeMark (last : Token) : List Char :=
  (if last.kind = .text then endMark.isSuffixOf? last.content.toList else none).getD []

theorem openWith_eq (kind : NoteKind) (first : Token) :
    openWith kind first = openingTag kind :: textOf (behindMark kind first) := by
  unfold openWith behindMark
  generalize (if first.kind = .text then _ else none) = cut?
  rcases cut? with _ | _ | ⟨c, cs⟩ <;> rfl

theorem close_eq (last : Token) : close last = textOf (beforeMark last) ++ [closingTag] := by
  unfold close beforeMark
  generalize (if last.kind = .text then _ else none) = cut?
  rcases cut? with _ | _ | ⟨c, cs⟩ <;> rfl

/-- The level without a soft break at its start. -/
def dropBreak : List Token → List Token
  | t :: ts => if t.kind = .softbreak then ts else t :: ts
  | [] => []

theorem dropSecondBreak_cons (t : Token) (ts : List Token) :
    dropSecondBreak (t :: ts) = t :: dropBreak ts := by
  cases ts with
  | nil => rfl
  | cons u us =>
    rw [dropSecondBreak, dropBreak]
    split <;> rfl

theorem dropBreak_concat_tag (ts : List Token) :
    dropBreak (ts ++ [closingTag]) = dropBreak ts ++ [closingTag] := by
  cases ts with
  | nil => rfl
  | cons t ts =>
    rw [List.cons_append, dropBreak, dropBreak]
    split <;> rfl

/-- **The tags take the places of the first and the last token**, whatever these are. Between the tags
are the other tokens, and what stands next to a mark in the two. -/
theorem wrap_ends (kind : NoteKind) (first : Token) (middle : List Token) (last : Token) :
    wrap kind (first :: (middle ++ [last])) = openingTag kind
      :: (dropBreak (textOf (behindMark kind first) ++ middle ++ textOf (beforeMark last))
        ++ [closingTag]) := by
  have hlast : (first :: (middle ++ [last])).getLast? = some last := by
    rw [← List.cons_append, List.getLast?_concat]
  have hinit : (first :: (middle ++ [last])).dropLast = first :: middle := by
    rw [← List.cons_append, List.dropLast_concat]
  simp only [wrap, hlast, hinit, List.cons_append]
  rw [openWith_eq, close_eq, List.cons_append, dropSecondBreak_cons, ← dropBreak_concat_tag]
  simp only [List.append_assoc]

/-! ## Marks that stand at the ends -/

/-- A text that starts with the opening mark, or with a part of it: the rest of the mark can have been
read as the label of a link. -/
def Opens (kind : NoteKind) (first : Token) (front : List Char) : Prop :=
  first.kind = .text ∧ (first.content.toList = startMark kind ++ front
    ∨ front = [] ∧ first.content.toList <+: startMark kind)

/-- A text that ends in the closing mark, or with a part of it. -/
def Closes (last : Token) (back : List Char) : Prop :=
  last.kind = .text ∧ (last.content.toList = back ++ endMark
    ∨ back = [] ∧ last.content.toList <:+ endMark)

/-- The marks of a note stand at the ends of its tokens; `inner` is what there is without them. -/
inductive Marked (kind : NoteKind) : (ts inner : List Token) → Prop
  /-- Both marks are in one text. -/
  | one {t : Token} {body : List Char} (hk : t.kind = .text)
      (h : t.content.toList = startMark kind ++ body ++ endMark) : Marked kind [t] (textOf body)
  | two {first last : Token} {front back : List Char} (middle : List Token)
      (hfirst : Opens kind first front) (hlast : Closes last back) :
      Marked kind (first :: (middle ++ [last])) (textOf front ++ middle ++ textOf back)

/-- Nothing is left of a text that is no longer than what is cut off it. -/
theorem getD_eq_nil_of_part {mark : List Char} {cut? : Option (List Char)}
    (hcut : ∀ rest, cut? = some rest → rest.length + mark.length = cs.length)
    (hpart : cs.length ≤ mark.length) : cut?.getD [] = [] := by
  cases hrest : cut? with
  | none => rfl
  | some rest =>
    have hlen := hcut rest hrest
    have hnil : rest.length = 0 := by omega
    exact List.length_eq_zero_iff.mp hnil

theorem Opens.behindMark_eq (h : Opens kind first front) : behindMark kind first = front := by
  obtain ⟨hk, hwhole | ⟨rfl, hpart⟩⟩ := h
  · have hcut := List.isPrefixOf?_eq_some_iff_append_eq.mpr hwhole.symm
    rw [behindMark, if_pos hk, hcut]
    rfl
  · rw [behindMark, if_pos hk]
    refine getD_eq_nil_of_part (fun rest hcut => ?_) hpart.length_le
    rw [← List.isPrefixOf?_eq_some_iff_append_eq.mp hcut, List.length_append, Nat.add_comm]

theorem Closes.beforeMark_eq (h : Closes last back) : beforeMark last = back := by
  obtain ⟨hk, hwhole | ⟨rfl, hpart⟩⟩ := h
  · have hcut := List.isSuffixOf?_eq_some_iff_append_eq.mpr hwhole.symm
    rw [beforeMark, if_pos hk, hcut]
    rfl
  · rw [beforeMark, if_pos hk]
    refine getD_eq_nil_of_part (fun rest hcut => ?_) hpart.length_le
    rw [← List.isSuffixOf?_eq_some_iff_append_eq.mp hcut, List.length_append]

/-- Between the tags is what there is without the marks. -/
theorem Marked.wrap_eq (h : Marked kind ts inner) :
    wrap kind ts = openingTag kind :: (dropBreak inner ++ [closingTag]) := by
  cases h with
  | two middle hfirst hlast => rw [wrap_ends, hfirst.behindMark_eq, hlast.beforeMark_eq]
  | @one t body hk h =>
    -- The end comes first, and what it leaves is a text that starts with the opening mark.
    have hlast : Closes t (startMark kind ++ body) := ⟨hk, .inl h⟩
    have hne : startMark kind ++ body ≠ [] :=
      List.append_ne_nil_of_left_ne_nil (by cases kind <;> decide) body
    have hclose : close t = [Token.text (String.ofList (startMark kind ++ body)), closingTag] := by
      rw [close_eq, hlast.beforeMark_eq, textOf, if_neg hne]
      rfl
    have hfirst : Opens kind (Token.text (String.ofList (startMark kind ++ body))) body :=
      ⟨rfl, .inl String.toList_ofList⟩
    simp only [wrap, List.getLast?_singleton, List.dropLast_singleton, List.nil_append, hclose]
    rw [openWith_eq, hfirst.behindMark_eq, List.cons_append, dropSecondBreak_cons,
      dropBreak_concat_tag]

/-! ## Nesting -/

/-- What a level opens and closes. -/
def turns (ts : List Token) : List (Bracket Element) := (ts.map Token.bracket).filter (· ≠ .plain)

theorem turns_append (ts us : List Token) : turns (ts ++ us) = turns ts ++ turns us := by
  rw [turns, List.map_append, List.filter_append]
  rfl

theorem turns_cons_plain (ht : t.bracket = .plain) (ts : List Token) : turns (t :: ts) = turns ts := by
  rw [turns, List.map_cons, ht, List.filter_cons_of_neg (by simp)]
  rfl

theorem turns_textOf (cs : List Char) : turns (textOf cs) = [] := by
  unfold textOf
  split <;> rfl

theorem bracket_of_text (h : t.kind = .text) : t.bracket = .plain := by
  rw [Token.bracket, h]

theorem turns_dropBreak (ts : List Token) : turns (dropBreak ts) = turns ts := by
  cases ts with
  | nil => rfl
  | cons t ts =>
    rw [dropBreak]
    split
    · rename_i hbreak
      have hplain : t.bracket = .plain := by rw [Token.bracket, hbreak]
      rw [turns_cons_plain hplain]
    · rfl

/-- The marks open and close nothing. -/
theorem Marked.turns_eq (h : Marked kind ts inner) : turns inner = turns ts := by
  cases h with
  | one hk h => rw [turns_textOf, turns_cons_plain (bracket_of_text hk)]; rfl
  | two middle hfirst hlast =>
    rw [turns_append, turns_append, turns_textOf, turns_textOf,
      turns_cons_plain (bracket_of_text hfirst.1), turns_append,
      turns_cons_plain (bracket_of_text hlast.1)]
    rfl

theorem balanced_iff_turns : Balanced (ts.map Token.bracket) ↔ Balanced (turns ts) := by
  rw [Balanced, Balanced, turns, waitingAfter_filter]

theorem fits_of_mem_textOf (h : t ∈ textOf cs) : t.Fits := by
  unfold textOf at h
  split at h
  · cases h
  · rw [List.mem_singleton.mp h]
    rfl

theorem Marked.fits (h : Marked kind ts inner) (hts : ∀ t ∈ ts, t.Fits) : ∀ t ∈ inner, t.Fits := by
  intro t ht
  cases h with
  | one hk h => exact fits_of_mem_textOf ht
  | two middle hfirst hlast =>
    rcases List.mem_append.mp ht with ht | ht
    · rcases List.mem_append.mp ht with ht | ht
      · exact fits_of_mem_textOf ht
      · exact hts t (List.mem_cons_of_mem _ (List.mem_append_left _ ht))
    · exact fits_of_mem_textOf ht

theorem dropBreak_subset (ts : List Token) : dropBreak ts ⊆ ts := by
  cases ts with
  | nil => exact List.Subset.refl []
  | cons t ts =>
    rw [dropBreak]
    split
    · exact List.subset_cons_self t ts
    · exact List.Subset.refl _

theorem Marked.paired_wrap {parent? : Option Kind} (h : Marked kind ts inner)
    (hts : Paired parent? ts) : Paired parent? (wrap kind ts) := by
  obtain ⟨hfits, hbalanced⟩ := hts
  rw [h.wrap_eq]
  constructor
  · refine List.forall_mem_cons.mpr ⟨rfl, List.forall_mem_append.mpr ⟨fun t ht => ?_, ?_⟩⟩
    · exact h.fits hfits t (dropBreak_subset inner ht)
    · exact List.forall_mem_singleton.mpr rfl
  · have hopening : (openingTag kind).bracket = .plain := rfl
    have hclosing : turns [closingTag] = [] := rfl
    rw [balanced_iff_turns, turns_cons_plain hopening, turns_append, hclosing, List.append_nil,
      turns_dropBreak, h.turns_eq, ← balanced_iff_turns]
    exact hbalanced

/-! ## The notes of a document -/

theorem dropBreak_cases (ts : List Token) :
    dropBreak ts = ts ∨ ∃ t, t.kind = .softbreak ∧ ts = t :: dropBreak ts := by
  cases ts with
  | nil => exact .inl rfl
  | cons t ts =>
    rw [dropBreak]
    split
    · rename_i hbreak
      exact .inr ⟨t, hbreak, rfl⟩
    · exact .inl rfl

theorem wrapToken_eq_self (h : kindOf? t.content = none ∨ t.inner = []) : wrapToken t = t := by
  unfold wrapToken
  split
  · rename_i kind hkind
    have hinner : t.inner = [] := h.resolve_left (by simp [hkind])
    have hwrap : t.children.map (wrap kind) = t.children := by
      unfold Token.inner at hinner
      cases hts : t.children with
      | none => rfl
      | some ts =>
        rw [hts, Option.getD_some] at hinner
        rw [hinner]
        rfl
    cases t
    exact congrArg (Token.mk _ _ _ _ _ _ _ · _ _) hwrap
  · rfl

/-- **Notes lose nothing but their marks** where these stand at the ends of their tokens. The tags
come first and last, between them are the old tokens without the marks and without at most one line
break behind the first, and they are still properly nested. What is no note, or has no tokens, stays as
it is. -/
theorem notes_keep_text (doc : List Token) : (wrapAll doc).length = doc.length
    ∧ ∀ (k : Nat) (t : Token), doc[k]? = some t →
      (kindOf? t.content = none ∨ t.inner = [] → (wrapAll doc)[k]? = some t)
      ∧ ∀ (kind : NoteKind) (body : List Char) (ts inner : List Token),
        t.content.toList = startMark kind ++ body ++ endMark → body ≠ [] →
        t.children = some ts → Marked kind ts inner → Paired (some t.kind) ts →
        ∃ between : List Token,
          (wrapAll doc)[k]? = some { t with
            children := some (openingTag kind :: (between ++ [closingTag])) }
          ∧ (between = inner ∨ ∃ b : Token, b.kind = .softbreak ∧ inner = b :: between)
          ∧ Paired (some t.kind) (openingTag kind :: (between ++ [closingTag])) := by
  refine ⟨List.length_map _, fun k t ht => ⟨fun hother => ?_, ?_⟩⟩
  · rw [wrapAll, List.getElem?_map, ht, Option.map_some, wrapToken_eq_self hother]
  · intro kind body ts inner hcontent hbody hts hmarked hpaired
    have hkind : kindOf? t.content = some kind := kindOf?_eq_some_iff.mpr ⟨body, hbody, hcontent⟩
    have hwrapped : wrapToken t = { t with children := some (wrap kind ts) } := by
      simp only [wrapToken, hkind, hts, Option.map_some]
    have hp := hmarked.paired_wrap hpaired
    rw [hmarked.wrap_eq] at hwrapped hp
    refine ⟨dropBreak inner, ?_, dropBreak_cases inner, hp⟩
    rw [wrapAll, List.getElem?_map, ht, Option.map_some, hwrapped]

theorem notes_keep_text_linked :
    let tokens := [Token.text "<$>", Token.spanOpening .link "a" "", Token.text "note",
      Token.spanClosing .link "a" "", Token.text " b <$>"]
    let wrapped := [openingTag .note, Token.spanOpening .link "a" "", Token.text "note",
      Token.spanClosing .link "a" "", Token.text " b ", closingTag]
    (wrapAll [Token.inline "<$>[note](c) b <$>" tokens])[0]?
        = some (Token.inline "<$>[note](c) b <$>" wrapped)
      ∧ Paired (some .inline) wrapped := by
  intro tokens wrapped
  have hopens : Opens .note (Token.text "<$>") [] := ⟨rfl, .inr ⟨rfl, by decide⟩⟩
  have hcloses : Closes (Token.text " b <$>") [' ', 'b', ' '] := ⟨rfl, .inl (by decide)⟩
  have hmarked : Marked .note tokens _ := .two [Token.spanOpening .link "a" "", Token.text "note",
    Token.spanClosing .link "a" ""] hopens hcloses
  obtain ⟨between, hwrapped, hbetween, hpaired⟩ :=
    ((notes_keep_text [Token.inline "<$>[note](c) b <$>" tokens]).2 0 _ rfl).2 .note
      "(c) b ".toList tokens _ (by decide) (by decide) rfl hmarked (by decide)
  rcases hbetween with rfl | ⟨b, hbreak, hinner⟩
  · exact ⟨hwrapped, hpaired⟩
  · cases hinner
    cases hbreak

/-- The comment rule leaves a complete comment in a text, but not in the content of its block. Where
it stands behind the closing mark, the closing tag takes the place of a whole text, or of the token that
closes a link. -/
theorem hidden_mark_loses_text :
    let left := [Token.text "<$>[note] ", Token.text " a <$><!-- c -->"]
    let note (content : String) (tokens : List Token) : List Token :=
      [Token.ofBlock (.opening .paragraph) "p" .opening, Token.inline content tokens,
        Token.ofBlock (.closing .paragraph) "p" .closing]
    let linked := [Token.text "<$>[note] ", Token.text " b <$><!-- ",
      Token.spanOpening .link "a" "autolink", Token.text "http://x--",
      Token.spanClosing .link "a" "autolink"]
    (Comment.removeAll (note "<$>[note] <!-- *b* --> a <$><!-- c -->"
          [Token.text "<$>[note] <!-- ", Token.spanOpening .em "em" "*", Token.text "b",
            Token.spanClosing .em "em" "*", Token.text " --> a <$><!-- c -->"])
        = note "<$>[note]  a <$>" left
      ∧ Paired (some .inline) left
      ∧ wrapAll (note "<$>[note]  a <$>" left)
        = note "<$>[note]  a <$>" [openingTag .note, Token.text " ", closingTag])
    ∧ (Comment.removeAll (note "<$>[note] <!-- *a* --> b <$><!-- <http://x-->"
          [Token.text "<$>[note] <!-- ", Token.spanOpening .em "em" "*", Token.text "a",
            Token.spanClosing .em "em" "*", Token.text " --> b <$><!-- ",
            Token.spanOpening .link "a" "autolink", Token.text "http://x--",
            Token.spanClosing .link "a" "autolink"])
        = note "<$>[note]  b <$>" linked
      ∧ Paired (some .inline) linked ∧ ¬ Paired (some .inline) (wrap .note linked)) := by
  decide +kernel

end Note

end MarkdownPreview
