import MarkdownPreview.Proofs.Lowering.Cuts
import MarkdownPreview.Proofs.Lowering.Texts

/-!
# What continues the blocks around a text

The later lines of a text in quotes and lists start with what continues these: indentation and quote
marks. The content of a block's text is its stretch of the source without them (`IsStripped`),
whatever blocks it is in.

Source that is put back as it was written is taken as it stands: a definition that is not accepted,
and a link or a picture that is none (`PutsBack`). Its later lines keep what they start with, but
for the spaces that adding text drops after a break. So it goes without what continues the blocks
around it where that is spaces only (`IsSpaced`), and keeps tabs and quote marks.
-/

set_option autoImplicit false

namespace MarkdownPreview.Markdown

open Text

/-! ## A line and a text -/

/-- What is left of a line without the marks of up to `depth` quotes and the indentation around
them. -/
def IsStripped (depth : Nat) (line rest : List Char) : Prop :=
  ∃ marks, line = marks ++ rest ∧ (∀ c ∈ marks, isIndent c = true ∨ c = '>')
    ∧ marks.count '>' ≤ depth
    ∧ ∀ c ∈ rest.head?, isIndent c = false ∧ (marks.count '>' < depth → c ≠ '>')

/-- Whether the later lines of a text have nothing but spaces to be stripped of. -/
def IsSpaced (depth : Nat) (text : List Char) : Prop :=
  ∀ line ∈ (lines text).tail, stripContinuation depth line = line.dropWhile (· == ' ')

variable {s : Setting} {depth : Nat} {line text : List Char} {ts : List Token} {t : Token}
  {b : Stretch}

theorem isStripped_dropWhile (line : List Char) :
    IsStripped 0 line (line.dropWhile isIndent) := by
  refine ⟨line.takeWhile isIndent, List.takeWhile_append_dropWhile.symm, fun c hc => .inl ?_, ?_,
    ?_⟩
  · exact List.all_eq_true.mp List.all_takeWhile c hc
  · rw [Nat.le_zero, List.count_eq_zero]
    intro hmem
    exact Bool.false_ne_true (List.all_eq_true.mp List.all_takeWhile _ hmem)
  · intro c hc
    have hstop := List.head?_dropWhile_not isIndent line
    rw [hc] at hstop
    exact ⟨by simpa using hstop, fun h => absurd h (Nat.not_lt_zero _)⟩

theorem isStripped_stripContinuation (depth : Nat) (line : List Char) :
    IsStripped depth line (stripContinuation depth line) := by
  induction depth generalizing line with
  | zero => exact isStripped_dropWhile line
  | succ depth ih =>
    obtain ⟨indent, hsplit, hindent, hcount, hstop⟩ := isStripped_dropWhile line
    rw [Nat.le_zero] at hcount
    rw [stripContinuation]
    split
    · rename_i rest hrest
      obtain ⟨marks, hmarks, hall, hle, hnext⟩ := ih rest
      have hquotes : (indent ++ '>' :: marks).count '>' = marks.count '>' + 1 := by
        rw [List.count_append, hcount, Nat.zero_add, List.count_cons_self]
      refine ⟨indent ++ '>' :: marks, ?_, ?_, ?_, ?_⟩
      · rw [hrest] at hsplit
        rw [hsplit, List.append_assoc, List.cons_append, ← hmarks]
      · intro c hc
        rcases List.mem_append.mp hc with hc | hc
        · exact hindent c hc
        · exact (List.mem_cons.mp hc).elim .inr (hall c)
      · rw [hquotes]
        exact Nat.succ_le_succ hle
      · rw [hquotes]
        intro c hc
        exact ⟨(hnext c hc).1, fun hlt => (hnext c hc).2 (Nat.lt_of_succ_lt_succ hlt)⟩
    · rename_i hquote
      refine ⟨indent, hsplit, hindent, by omega, fun c hc => ⟨(hstop c hc).1, fun _ => ?_⟩⟩
      rintro rfl
      obtain ⟨rest, hrest⟩ := List.head?_eq_some_iff.mp hc
      exact hquote rest hrest

theorem stripContinuations_eq {first : List Char} {later : List (List Char)}
    (h : lines text = first :: later) (depth : Nat) :
    stripContinuations depth text = joinLines (first :: later.map (stripContinuation depth)) := by
  rw [stripContinuations, h]

/-- Every line of a text but the first is stripped. -/
theorem lines_stripContinuations (depth : Nat) (text : List Char) :
    ∃ first later, lines text = first :: later
      ∧ lines (stripContinuations depth text) = first :: later.map (stripContinuation depth) := by
  obtain ⟨first, later, hlines⟩ := exists_lines_eq_cons text
  have hbreak : ∀ line ∈ first :: later, '\n' ∉ line := by
    rw [← hlines]
    exact fun line => not_mem_of_mem_lines
  rw [List.forall_mem_cons] at hbreak
  refine ⟨first, later, hlines, ?_⟩
  rw [stripContinuations_eq hlines]
  refine lines_joinLines (List.cons_ne_nil _ _) (List.forall_mem_cons.mpr ⟨hbreak.1, ?_⟩)
  intro line hline
  obtain ⟨whole, hwhole, rfl⟩ := List.mem_map.mp hline
  obtain ⟨marks, hmarks, -⟩ := isStripped_stripContinuation depth whole
  have hnone := hbreak.2 whole hwhole
  rw [hmarks, List.mem_append, not_or] at hnone
  exact hnone.2

/-! ## Text that is added after a break -/

theorem addText_dropWhile (h : isAfterBreak ts = true) (line : List Char) :
    addText ts (line.dropWhile (· == ' ')) = addText ts line := by
  induction line with
  | nil => rfl
  | cons c line ih =>
    by_cases hc : c = ' '
    · rw [List.dropWhile_cons_of_pos (by simp [hc]), ih, hc, addText_cons, addChar_skip h]
    · rw [List.dropWhile_cons_of_neg (by simp [hc])]

/-- A line after a break loses the spaces it starts with. -/
theorem addText_dropSpaces (ts : List Token) (line : List Char) :
    addText ts ('\n' :: line.dropWhile (· == ' ')) = addText ts ('\n' :: line) := by
  have hbreak : isAfterBreak (addChar ts '\n') = true := rfl
  rw [addText_cons, addText_cons, addText_dropWhile hbreak]

theorem addText_later {later : List (List Char)}
    (h : ∀ line ∈ later, stripContinuation depth line = line.dropWhile (· == ' '))
    (ts : List Token) :
    addText ts ((later.map (stripContinuation depth)).flatMap ('\n' :: ·))
      = addText ts (later.flatMap ('\n' :: ·)) := by
  induction later generalizing ts with
  | nil => rfl
  | cons line later ih =>
    rw [List.forall_mem_cons] at h
    rw [List.map_cons, List.flatMap_cons, List.flatMap_cons, addText_append, addText_append, h.1,
      addText_dropSpaces, ih h.2]

/-- Text whose later lines have only spaces to be stripped of may as well be stripped. -/
theorem addText_stripContinuations (h : IsSpaced depth text) (ts : List Token) :
    addText ts (stripContinuations depth text) = addText ts text := by
  obtain ⟨first, later, hlines⟩ := exists_lines_eq_cons text
  rw [IsSpaced, hlines, List.tail_cons] at h
  have htext : text = joinLines (first :: later) := by rw [← hlines, joinLines_lines]
  rw [stripContinuations_eq hlines, htext, joinLines_cons, joinLines_cons, addText_append,
    addText_append, addText_later h]

/-! ## What is put back -/

/-- The nodes of running text that are put back as they were written, where they stand after a line:
the label that is read as nodes, if there is one, and the source that is put back. -/
inductive PutsBack (s : Setting) (l : Line) : Node → Option (List Node) → List Char → Prop
  | link {e : Extent} {url : String} {title? : Option String} {ns : List Node}
      (hform : LinkForm.ofSource (s.slice (some e)) = .bracket)
      (h : s.acceptance.admits url = false) :
      PutsBack s l (.link (some e) url title? ns) (some ns) (s.afterLabel e ns)
  | address {e : Option Extent} {url : String} {title? : Option String} {ns : List Node}
      (hform : LinkForm.ofSource (s.slice e) = .bare) (hs : s.acceptance = .strict)
      (h : isExplicitAddress (String.ofList (s.slice e)) url = false ∨ l.insideAnchor = true) :
      PutsBack s l (.link e url title? ns) none (s.slice e)
  | linkReference {e : Extent} {identifier : String} {ns : List Node}
      (h : s.resolve? identifier = none) :
      PutsBack s l (.linkReference (some e) identifier ns) (some ns) (s.afterLabel e ns)
  | image {e : Option Extent} {url alt : String} {title? : Option String}
      (h : s.acceptance.admits url = false) :
      PutsBack s l (.image e url alt title?) none (s.slice e)
  | imageReference {e : Option Extent} {identifier alt : String}
      (h : s.resolve? identifier = none) :
      PutsBack s l (.imageReference e identifier alt) none (s.slice e)

/-- A line with what is put back: a bracket and a label before the text, if there is one. -/
def Line.putBack (s : Setting) (l : Line) (label? : Option (List Node)) (text : List Char) : Line :=
  match label? with
  | some ns => (inlines s ns (l.push ['['])).push text
  | none => l.push text

theorem PutsBack.inline_eq {l : Line} {n : Node} {label? : Option (List Node)}
    (h : PutsBack s l n label? text) : inline s n l = l.putBack s label? text := by
  cases h with
  | link hform h =>
    unfold inline
    rw [hform]
    dsimp only
    rw [if_neg (Bool.eq_false_iff.mp h)]
    rfl
  | address hform hs h =>
    unfold inline
    rw [hform]
    dsimp only
    rw [if_neg]
    · rfl
    · rintro (hlenient | ⟨hexplicit, hinside⟩)
      · rw [hs] at hlenient
        cases hlenient
      · rw [hexplicit, hinside] at h
        simp at h
  | linkReference h =>
    unfold inline
    rw [h]
    rfl
  | image h =>
    unfold inline
    rw [if_neg (Bool.eq_false_iff.mp h)]
    rfl
  | imageReference h =>
    unfold inline
    rw [h]
    rfl

theorem Line.push_stripContinuations (h : IsSpaced depth text) (l : Line) :
    l.push (stripContinuations depth text) = l.push text := by
  rw [push, push, addText_stripContinuations h]

theorem Line.putBack_stripContinuations (h : IsSpaced depth text) (l : Line)
    (label? : Option (List Node)) :
    l.putBack s label? (stripContinuations depth text) = l.putBack s label? text := by
  cases label? with
  | none => exact push_stripContinuations h l
  | some ns => exact push_stripContinuations h (inlines s ns (l.push ['[']))

/-! ## The texts of a document -/

/-- The content of a text is its stretch of the source without what continues the blocks around it,
but for a definition, which is taken as it stands. -/
theorem IsTextOf.content_eq_iff (h : IsTextOf s t b) :
    t.content = String.ofList (stripContinuations b.depth b.text) ↔
      (b.isDefinition = true → stripContinuations b.depth b.text = b.text) := by
  cases h with
  | nodes depth ns =>
    refine iff_of_true ?_ nofun
    rw [textToken, Token.inline, Setting.stretch]
    cases s.spanned? ns <;> rfl
  | definition depth text =>
    show String.ofList text = String.ofList (stripContinuations depth text) ↔
      (true = true → stripContinuations depth text = text)
    rw [String.ofList_inj, eq_comm]
    exact ⟨fun h _ => h, fun h => h rfl⟩

theorem IsTextOf.children_eq (h : IsTextOf s t b) (hb : b.isDefinition = true)
    (hspaced : IsSpaced b.depth b.text) :
    t.children = some (addText [] (stripContinuations b.depth b.text)).reverse := by
  cases h with
  | nodes depth ns => cases hb
  | definition depth text =>
    rw [addText_stripContinuations hspaced]
    rfl

/-- **No text keeps what continues the blocks around it.** The contents of the texts of a document
are their stretches of the source, every line but the first of which is stripped; a definition that
is put back is the one exception, where there is something to strip. What is put back among the
tokens of a text is what the stripped source gives, as long as its later lines have only spaces to
be stripped of. -/
theorem texts_stripped (source : String) (acceptance : Acceptance) (superscript : Bool)
    (root : Node) :
    let s : Setting := ⟨source.toList, acceptance, superscript, root.definitions⟩
    List.Forall₂
      (fun t b =>
        (t.content = String.ofList (stripContinuations b.depth b.text) ↔
          (b.isDefinition = true → stripContinuations b.depth b.text = b.text))
        ∧ (b.isDefinition = true → IsSpaced b.depth b.text →
          t.children = some (addText [] (stripContinuations b.depth b.text)).reverse))
      (texts (tokens source acceptance superscript root)) (root.stretches s 0)
    ∧ (∀ l n label? text depth, PutsBack s l n label? text → IsSpaced depth text →
        inline s n l = l.putBack s label? (stripContinuations depth text))
    ∧ (∀ depth text, ∃ first later, lines text = first :: later
        ∧ lines (stripContinuations depth text) = first :: later.map (stripContinuation depth))
    ∧ ∀ depth line, IsStripped depth line (stripContinuation depth line) := by
  intro s
  refine ⟨?_, ?_, lines_stripContinuations, isStripped_stripContinuation⟩
  · have htexts : HasTexts s (tokens source acceptance superscript root) (root.stretches s 0) :=
      hasTexts_block 0 root
    exact htexts.imp fun t b h => ⟨h.content_eq_iff, h.children_eq⟩
  · intro l n label? text depth hback hspaced
    rw [hback.inline_eq, Line.putBack_stripContinuations hspaced]

/-- A quote, a list with a picture that is put back, and a definition that is put back, each on two
lines. -/
def twoLineBlocks : Node :=
  .root (some ⟨0, 40⟩)
    [.blockquote (some ⟨0, 7⟩) [.paragraph (some ⟨2, 7⟩) [.text (some ⟨2, 7⟩) "a\nb"]],
      .list (some ⟨9, 26⟩) false none false
        [.listItem (some ⟨9, 26⟩) false
          [.paragraph (some ⟨11, 26⟩) [.image (some ⟨11, 26⟩) "./p" "x" (some "t")]]],
      .definition (some ⟨28, 40⟩) "y" "./z" (some "t")]

theorem texts_stripped_twoLineBlocks :
    let source := "> a\n> b\n\n- ![x](./p\n  \"t\")\n\n[y]: ./z\n\"t\""
    let s : Setting := ⟨source.toList, .strict, false, twoLineBlocks.definitions⟩
    let picture : Node := .image (some ⟨11, 26⟩) "./p" "x" (some "t")
    let written := "![x](./p\n  \"t\")".toList
    (PutsBack s {} picture none written ∧ IsSpaced 0 written)
    ∧ inline s picture {} = Line.push {} "![x](./p\n\"t\")".toList
    ∧ ∃ quoted pictured defined,
      texts (tokens source .strict false twoLineBlocks) = [quoted, pictured, defined]
      ∧ quoted.content = "a\nb" ∧ pictured.content = "![x](./p\n\"t\")"
      ∧ defined.content = "[y]: ./z\n\"t\""
      ∧ defined.children = some (addText [] "[y]: ./z\n\"t\"".toList).reverse := by
  intro source s picture written
  obtain ⟨htexts, hback, -, -⟩ := texts_stripped source .strict false twoLineBlocks
  have hpicture : PutsBack s {} picture none written := by
    have hslice : s.slice (some ⟨11, 26⟩) = written := by decide +kernel
    rw [← hslice]
    exact .image (by decide)
  have hspaced : IsSpaced 0 written := by
    unfold IsSpaced
    decide +kernel
  have hwhole : IsSpaced 0 "[y]: ./z\n\"t\"".toList := by
    unfold IsSpaced
    decide +kernel
  have hstripped : stripContinuations 0 written = "![x](./p\n\"t\")".toList := by decide +kernel
  have hsame : stripContinuations 0 "[y]: ./z\n\"t\"".toList = "[y]: ./z\n\"t\"".toList := by
    decide +kernel
  have hstretches : twoLineBlocks.stretches s 0 =
      [⟨1, "a\n> b".toList, false⟩, ⟨0, written, false⟩,
        ⟨0, "[y]: ./z\n\"t\"".toList, true⟩] := by decide +kernel
  rw [show (⟨source.toList, .strict, false, twoLineBlocks.definitions⟩ : Setting) = s from rfl,
    hstretches] at htexts
  refine ⟨⟨hpicture, hspaced⟩, ?_, ?_⟩
  · rw [hback {} picture none written 0 hpicture hspaced, hstripped]
    rfl
  · obtain ⟨quoted, _, ⟨hquoted, -⟩, hlater, hts⟩ := List.forall₂_cons_right_iff.mp htexts
    obtain ⟨pictured, _, ⟨hpictured, -⟩, hlast, rfl⟩ := List.forall₂_cons_right_iff.mp hlater
    obtain ⟨defined, _, ⟨hdefined, hchildren⟩, hend, rfl⟩ := List.forall₂_cons_right_iff.mp hlast
    obtain rfl := List.forall₂_nil_right_iff.mp hend
    refine ⟨quoted, pictured, defined, hts, ?_, ?_, ?_, ?_⟩
    · exact (hquoted.mpr nofun).trans (by decide +kernel)
    · exact (hpictured.mpr nofun).trans (congrArg String.ofList hstripped)
    · exact (hdefined.mpr fun _ => hsame).trans (congrArg String.ofList hsame)
    · rw [hchildren rfl hwhole, hsame]

/-- A definition in a quote that is put back keeps the marks of the quote on its later lines, in its
content and among its tokens. -/
theorem tokens_keep_marks :
    let root : Node := .root (some ⟨0, 16⟩)
      [.blockquote (some ⟨0, 16⟩) [.definition (some ⟨2, 16⟩) "a" "./x" (some "t")]]
    let source := "> [a]: ./x\n> \"t\""
    let written := "[a]: ./x\n> \"t\""
    root.stretches ⟨source.toList, .strict, false, root.definitions⟩ 0
      = [⟨1, written.toList, true⟩]
    ∧ stripContinuations 1 written.toList = "[a]: ./x\n\"t\"".toList
    ∧ texts (tokens source .strict false root)
      = [Token.inline written
        [Token.text "[a]: ./x", breakToken .softbreak, Token.text "> \"t\""]] := by
  decide +kernel

end MarkdownPreview.Markdown
