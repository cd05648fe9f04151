import MarkdownPreview.Html.Escape
import MarkdownPreview.Prose.Escape
import MarkdownPreview.Proofs.Text.Scan
import MarkdownPreview.Proofs.Text.Trim

/-!
# What escaping leaves

Escaped text has no `<`, whichever of the escapers has written it. That of attributes and that of
prose leave no `"` either, so what they have written can stand as the value of an attribute; the one
of code does, and so it is used for text only.

Prose is set glyph by glyph, in a dozen passes. A glyph is never the character `<`, from the start
to the end: a pass puts in references, or glyphs that are there already. What is left of the
straight double quotes becomes references in the last pass over quotes, and later ones put in
references only.
-/

set_option autoImplicit false

namespace MarkdownPreview

open Text

/-! ## Characters -/

namespace Html

/-- No reference has an angle bracket or a quote in it. -/
theorem Entity.not_mem_chars (e : Entity) : '<' ∉ e.chars ∧ '"' ∉ e.chars := by
  cases e <;> decide

theorem bracket_not_mem_bracketChar (c : Char) : '<' ∉ bracketChar c := by
  unfold bracketChar
  split
  · rename_i e _
    exact e.not_mem_chars.1
  · rename_i h
    rw [List.mem_singleton]
    rintro rfl
    cases h

theorem bracket_not_mem_attrChar (c : Char) : '<' ∉ attrChar c := by
  unfold attrChar
  split
  · exact Entity.quot.not_mem_chars.1
  · exact bracket_not_mem_bracketChar c

theorem quote_not_mem_attrChar (c : Char) : '"' ∉ attrChar c := by
  unfold attrChar
  split
  · exact Entity.quot.not_mem_chars.2
  · rename_i h
    unfold bracketChar
    split
    · rename_i e _
      exact e.not_mem_chars.2
    · rw [List.mem_singleton]
      exact fun hc => h hc.symm

theorem bracket_not_mem_codeChar (c : Char) : '<' ∉ codeChar c := by
  unfold codeChar
  split
  · decide
  · exact bracket_not_mem_bracketChar c

theorem bracket_not_mem_escape (text : String) : '<' ∉ (escape text).toList := by
  rw [escape, String.toList_ofList, List.mem_flatMap]
  exact fun ⟨c, _, h⟩ => bracket_not_mem_attrChar c h

theorem quote_not_mem_escape (text : String) : '"' ∉ (escape text).toList := by
  rw [escape, String.toList_ofList, List.mem_flatMap]
  exact fun ⟨c, _, h⟩ => quote_not_mem_attrChar c h

theorem bracket_not_mem_escapeCode (text : String) : '<' ∉ (escapeCode text).toList := by
  rw [escapeCode, String.toList_ofList, List.mem_flatMap]
  exact fun ⟨c, _, h⟩ => bracket_not_mem_codeChar c h

/-- A text without characters that have to be escaped stays as it is. -/
theorem escape_eq_self {text : String} (h : ∀ c ∈ text.toList, attrChar c = [c]) :
    escape text = text := by
  have hchars : text.toList.flatMap attrChar = text.toList := by
    conv_rhs => rw [← List.flatMap_singleton' text.toList]
    exact List.flatMap_congr h
  rw [escape, hchars, String.ofList_toList]

end Html

/-! ## Quotes in prose -/

namespace Prose

/-- What a pass puts in is a reference, or is there already. -/
def Draws (m : Pass) : Prop :=
  ∀ ⦃atStart gs hit⦄, m atStart gs = some hit → ∀ g ∈ hit.value, (∃ e, g = .entity e) ∨ g ∈ gs

theorem Draws.keeps {P : Glyph → Prop} (hP : ∀ e, P (.entity e)) {m : Pass} (hm : Draws m) :
    Keeps P m := by
  intro atStart gs hit h hhit g hg
  rcases hm hhit g hg with ⟨e, rfl⟩ | hg
  · exact hP e
  · exact h g hg

theorem mem_of_mem_strip {p : Glyph → Bool} {gs : List Glyph} {g : Glyph} (h : g ∈ strip p gs) :
    g ∈ gs := by
  obtain ⟨n, hn⟩ := exists_dropEndWhile_eq_take p (gs.dropWhile p)
  rw [strip, hn] at h
  exact (List.dropWhile_sublist p).subset (List.mem_of_mem_take h)

theorem mem_of_mem_quoted {gs : List Glyph} {g : Glyph} (h : g ∈ quoted gs) : g ∈ gs :=
  (List.takeWhile_sublist _).subset h

theorem draws_detachedPair : Draws detachedPair := by
  intro atStart gs hit hm
  unfold detachedPair at hm
  split at hm
  · split at hm
    · cases hm
      intro g hg
      simp only [List.mem_cons, List.mem_append, List.not_mem_nil, or_false] at hg
      rcases hg with rfl | rfl | hg | rfl | rfl
      · exact .inr (by simp)
      · exact .inl ⟨_, rfl⟩
      · exact .inr (by simp [mem_of_mem_quoted (mem_of_mem_strip hg)])
      · exact .inl ⟨_, rfl⟩
      · exact .inr (by simp)
    · cases hm
  · split at hm
    · cases hm
      intro g hg
      simp only [List.mem_cons, List.mem_append, List.not_mem_nil, or_false] at hg
      rcases hg with rfl | hg | rfl
      · exact .inl ⟨_, rfl⟩
      · exact .inr (by simp [mem_of_mem_quoted (mem_of_mem_strip hg)])
      · exact .inl ⟨_, rfl⟩
    · cases hm
  · cases hm

theorem draws_openDouble : Draws openDouble := by
  intro atStart gs hit hm
  unfold openDouble at hm
  split at hm
  · cases hm
    simp [ldquo]
  · cases hm
    simp [ldquo]
  · cases hm
    simp [ldquo]
  · split at hm
    · cases hm
      unfold setAs
      split <;> simp [ldquo]
    · cases hm
  · cases hm

theorem draws_assignedPair : Draws assignedPair := by
  intro atStart gs hit hm
  unfold assignedPair at hm
  split at hm
  · split at hm
    · cases hm
      intro g hg
      simp only [List.mem_cons, List.mem_append, List.not_mem_nil, or_false] at hg
      rcases hg with rfl | rfl | hg | rfl
      · exact .inr (by simp)
      · exact .inl ⟨_, rfl⟩
      · exact .inr (by simp [mem_of_mem_quoted hg])
      · exact .inl ⟨_, rfl⟩
    · cases hm
  · split at hm
    · rename_i gs _ _ hafter
      cases hm
      intro g hg
      simp only [List.mem_cons, List.mem_append, List.not_mem_nil, or_false] at hg
      rcases hg with rfl | hg | rfl | rfl
      · exact .inl ⟨_, rfl⟩
      · exact .inr (by simp [mem_of_mem_quoted hg])
      · exact .inl ⟨_, rfl⟩
      · have hmem : Glyph.char '=' ∈ fromQuote gs := by simp [hafter]
        exact .inr (List.mem_cons_of_mem _ ((List.dropWhile_sublist _).subset hmem))
    · cases hm
  · cases hm

theorem draws_closeDouble : Draws closeDouble := by
  intro atStart gs hit hm
  unfold closeDouble at hm
  split at hm
  · cases hm
    simp [rdquo]
  · cases hm
    simp [rdquo]
  · split at hm
    · cases hm
      unfold setAs
      split <;> simp [rdquo]
    · cases hm
  · cases hm

theorem draws_apostrophesBeforeWord : Draws apostrophesBeforeWord := by
  intro atStart gs hit hm
  unfold apostrophesBeforeWord at hm
  split at hm
  · split at hm
    · cases hm
      simp [rsquo, lsquo]
    · cases hm
  · cases hm

theorem draws_apostrophesAfterWord : Draws apostrophesAfterWord := by
  intro atStart gs hit hm
  unfold apostrophesAfterWord at hm
  split at hm
  · split at hm
    · cases hm
    · split at hm
      · cases hm
        simp
      · split at hm
        · cases hm
          simp [ldquo]
        · cases hm
          simp [ldquo]
  · cases hm

theorem draws_apostrophesAtEnd : Draws apostrophesAtEnd := by
  intro atStart gs hit hm
  unfold apostrophesAtEnd at hm
  split at hm
  · cases hm
    simp [rdquo]
  · cases hm

theorem draws_contraction : Draws contraction := by
  intro atStart gs hit hm
  unfold contraction at hm
  split at hm <;> cases hm <;> simp [rsquo]

/-- Where a fixed stretch gives way to its own glyphs and references. -/
theorem draws_exactly {mark value : List Glyph}
    (h : ∀ g ∈ value, (∃ e, g = .entity e) ∨ g ∈ mark) : Draws (exactly mark value) := by
  intro atStart gs hit hm g hg
  unfold exactly at hm
  split at hm
  · cases hm
  · split at hm
    · rename_i hprefix
      cases hm
      exact (h g hg).imp_right fun hmem => (List.isPrefixOf_iff_prefix.mp hprefix).subset hmem
    · cases hm

theorem draws_apostropheAfterParen : Draws apostropheAfterParen :=
  draws_exactly (by simp [lsquo])

theorem draws_apostropheBeforeParen : Draws apostropheBeforeParen :=
  draws_exactly (by simp [rsquo])

theorem draws_letterSign (letter : Char) (sign : Html.Entity) : Draws (letterSign letter sign) := by
  intro atStart gs hit hm
  unfold letterSign at hm
  split at hm
  · split at hm
    · cases hm
      simp
    · cases hm
  · cases hm

theorem draws_tradeMark : Draws tradeMark := by
  intro atStart gs hit hm
  unfold tradeMark at hm
  split at hm
  · split at hm
    · cases hm
      simp
    · cases hm
  · cases hm

/-- The apostrophes that end a word are set, and nothing else is changed. -/
theorem mem_endWordApostrophes {g : Glyph} (inWord : Bool) (gs : List Glyph)
    (h : g ∈ endWordApostrophes inWord gs) : g = rsquo ∨ g ∈ gs := by
  fun_induction endWordApostrophes inWord gs with
  | case1 => cases h
  | case2 => exact .inl (List.mem_singleton.mp h)
  | case3 gs ih =>
    rcases List.mem_cons.mp h with h | h
    · exact .inl h
    · rcases List.mem_cons.mp h with rfl | h
      · exact .inr (by simp)
      · exact (ih h).imp_right fun h => by simp [h]
  | case4 inWord gs _ _ ih =>
    rcases List.mem_cons.mp h with rfl | h
    · exact .inr List.mem_cons_self
    · exact (ih h).imp_right (List.mem_cons_of_mem _)
  | case5 inWord g' gs _ _ _ ih =>
    rcases List.mem_cons.mp h with rfl | h
    · exact .inr List.mem_cons_self
    · exact (ih h).imp_right (List.mem_cons_of_mem _)

theorem mem_endApostrophes {gs : List Glyph} {g : Glyph} (h : g ∈ endApostrophes gs) :
    g = rsquo ∨ g ∈ gs := by
  unfold endApostrophes at h
  split at h
  · exact .inl (List.mem_singleton.mp h)
  · exact mem_endWordApostrophes false gs h

/-! ## Prose -/

/-- A glyph that is not an opening angle bracket. -/
def Glyph.IsClear (g : Glyph) : Prop := g ≠ .char '<'

/-- A glyph that is not a straight double quote either. -/
def Glyph.IsQuiet (g : Glyph) : Prop := g ≠ .char '<' ∧ g ≠ straight

theorem Glyph.isClear_ofChar (c : Char) : Glyph.IsClear (.ofChar c) := by
  unfold Glyph.ofChar
  split
  · exact nofun
  · rename_i h
    rintro ⟨⟩
    cases h

/-- The passes after those over double quotes. -/
def setApostrophes (gs : List Glyph) : List Glyph :=
  gs |> replace apostrophesBeforeWord
    |> replace apostrophesAfterWord
    |> replace apostrophesAtEnd
    |> endApostrophes
    |> replace apostropheAfterParen
    |> replace apostropheBeforeParen
    |> replace contraction
    |> List.map leftover

theorem setQuotes_eq (gs : List Glyph) : setQuotes gs = setApostrophes
    (replace closeDouble (replace openDouble (replace assignedPair (replace detachedPair gs)))) :=
  rfl

section

variable {P : Glyph → Prop} (hP : ∀ e, P (.entity e)) {gs : List Glyph}

include hP

theorem forall_mem_pass {m : Pass} (hm : Draws m) (h : ∀ g ∈ gs, P g) : ∀ g ∈ replace m gs, P g :=
  (hm.keeps hP).replace h

/-- What holds of references and of all glyphs of a text holds of them after the last passes. -/
theorem forall_mem_setApostrophes (h : ∀ g ∈ gs, P g) : ∀ g ∈ setApostrophes gs, P g := by
  have hend {gs : List Glyph} (h : ∀ g ∈ gs, P g) : ∀ g ∈ endApostrophes gs, P g := by
    intro g hg
    rcases mem_endApostrophes hg with rfl | hg
    · exact hP _
    · exact h g hg
  have hset {gs : List Glyph} (h : ∀ g ∈ gs, P g) : ∀ g ∈ gs.map leftover, P g := by
    intro u hu
    obtain ⟨g, hg, rfl⟩ := List.mem_map.mp hu
    unfold leftover
    split
    · exact hP _
    · exact h g hg
  have hpairs := forall_mem_pass hP draws_apostrophesAtEnd
    (forall_mem_pass hP draws_apostrophesAfterWord
      (forall_mem_pass hP draws_apostrophesBeforeWord h))
  have hparens := forall_mem_pass hP draws_apostropheBeforeParen
    (forall_mem_pass hP draws_apostropheAfterParen (hend hpairs))
  exact hset (forall_mem_pass hP draws_contraction hparens)

theorem forall_mem_setQuotes (h : ∀ g ∈ gs, P g) : ∀ g ∈ setQuotes gs, P g := by
  have hpairs := forall_mem_pass hP draws_assignedPair (forall_mem_pass hP draws_detachedPair h)
  rw [setQuotes_eq]
  exact forall_mem_setApostrophes hP
    (forall_mem_pass hP draws_closeDouble (forall_mem_pass hP draws_openDouble hpairs))

theorem forall_mem_setSigns (h : ∀ g ∈ gs, P g) : ∀ g ∈ setSigns gs, P g := by
  unfold setSigns
  exact forall_mem_pass hP draws_tradeMark (forall_mem_pass hP (draws_letterSign 'c' .copy)
    (forall_mem_pass hP (draws_letterSign 'r' .reg) h))

end

theorem ne_straight_of_mem_setQuotes {gs : List Glyph} {g : Glyph} (h : g ∈ setQuotes gs) :
    g ≠ straight := by
  rw [setQuotes_eq, setApostrophes] at h
  obtain ⟨g, -, rfl⟩ := List.mem_map.mp h
  unfold leftover
  split
  · exact nofun
  · assumption

theorem isQuiet_setQuotes {gs : List Glyph} (h : ∀ g ∈ gs, g.IsClear) :
    ∀ g ∈ setQuotes gs, g.IsQuiet := fun g hg =>
  ⟨forall_mem_setQuotes (fun _ => nofun) h g hg, ne_straight_of_mem_setQuotes hg⟩

theorem isQuiet_setSigns {gs : List Glyph} (h : ∀ g ∈ gs, g.IsQuiet) :
    ∀ g ∈ setSigns gs, g.IsQuiet :=
  forall_mem_setSigns (fun _ => ⟨nofun, nofun⟩) h

theorem Glyph.IsQuiet.not_mem_chars {g : Glyph} (h : g.IsQuiet) :
    '<' ∉ g.chars ∧ '"' ∉ g.chars := by
  cases g with
  | entity e => exact e.not_mem_chars
  | char c =>
    rw [Glyph.chars, List.mem_singleton, List.mem_singleton]
    exact ⟨fun hc => h.1 (hc ▸ rfl), fun hc => h.2 (hc ▸ rfl)⟩

/-- **Prose as it is written has neither `<` nor `"`.** -/
theorem not_mem_escape (text : String) :
    '<' ∉ (escape text).toList ∧ '"' ∉ (escape text).toList := by
  have hquiet : ∀ g ∈ glyphs text, g.IsQuiet := by
    refine isQuiet_setSigns (isQuiet_setQuotes ?_)
    intro g hg
    obtain ⟨c, -, rfl⟩ := List.mem_map.mp hg
    exact Glyph.isClear_ofChar c
  rw [escape, String.toList_ofList, List.mem_flatMap, List.mem_flatMap]
  exact ⟨fun ⟨g, hg, h⟩ => (hquiet g hg).not_mem_chars.1 h,
    fun ⟨g, hg, h⟩ => (hquiet g hg).not_mem_chars.2 h⟩

end Prose

end MarkdownPreview
