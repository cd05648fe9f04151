import MarkdownPreview.Proofs.Markup.Escape

/-!
# What setting a text conserves

A pass over running text puts some glyphs in the place of others. To see that none of them loses,
invents or moves anything, glyphs are weighed: what a pass puts in weighs as much as what it covers,
whatever the weight, as long as quotes and blanks are nothing to it and a sign weighs as much as the
letters it is written with (`IsFair`). So the weight of a whole text stays what it was
(`IsFair.glyphs`). What is read off a text afterwards hangs on the weight one chooses.
-/

set_option autoImplicit false

namespace MarkdownPreview.Prose

open Text

universe u

variable {γ : Type u} {weight : Glyph → List γ}

/-- Whether a glyph is a quote, as it is typed or as a reference. -/
def Glyph.isQuote : Glyph → Bool
  | .char c => c == '"' || c == '\'' || c == '“' || c == '”'
  | .entity e => e == .ldquo || e == .rdquo || e == .lsquo || e == .rsquo || e == .quot

/-- A weight to which quotes, blanks and the case of letters are nothing, and a sign as much as the
letters it is written with. -/
structure IsFair (weight : Glyph → List γ) : Prop where
  quote : ∀ g, g.isQuote = true → weight g = []
  blank : ∀ g, g.isBlank = true → weight g = []
  caseless : ∀ c d : Char, c.toLower = d.toLower → weight (.char c) = weight (.char d)
  reg : weight (.entity .reg) = ['(', 'r', ')'].flatMap fun c => weight (.char c)
  copy : weight (.entity .copy) = ['(', 'c', ')'].flatMap fun c => weight (.char c)
  trade : weight (.entity .trade) = ['(', 't', 'm', ')'].flatMap fun c => weight (.char c)

theorem flatMap_dropWhile {p : Glyph → Bool} (hp : ∀ g, p g = true → weight g = [])
    (gs : List Glyph) : (gs.dropWhile p).flatMap weight = gs.flatMap weight := by
  induction gs with
  | nil => rfl
  | cons g gs ih =>
    rw [List.dropWhile_cons]
    split
    · rename_i h
      simp [ih, hp g h]
    · rfl

theorem flatMap_dropEndWhile {p : Glyph → Bool} (hp : ∀ g, p g = true → weight g = [])
    (gs : List Glyph) : (dropEndWhile p gs).flatMap weight = gs.flatMap weight := by
  induction gs using List.reverseRecOn with
  | nil => rfl
  | append_singleton gs g ih =>
    rw [dropEndWhile_concat]
    split
    · rename_i h
      simp [ih, hp g h]
    · rfl

theorem flatMap_strip {p : Glyph → Bool} (hp : ∀ g, p g = true → weight g = [])
    (gs : List Glyph) : (strip p gs).flatMap weight = gs.flatMap weight := by
  rw [strip, flatMap_dropEndWhile hp, flatMap_dropWhile hp]

/-- A stretch up to the next quote and some glyphs from there on. -/
theorem take_quoted (gs : List Glyph) (n : Nat) :
    gs.take ((quoted gs).length + n) = quoted gs ++ (fromQuote gs).take n := by
  have h : quoted gs ++ fromQuote gs = gs := List.takeWhile_append_dropWhile
  calc gs.take ((quoted gs).length + n)
      = (quoted gs ++ fromQuote gs).take ((quoted gs).length + n) := by rw [h]
    _ = quoted gs ++ (fromQuote gs).take n := List.take_length_add_append n

namespace IsFair

variable (hw : IsFair weight)

include hw

/-! ## Quotes -/

theorem marks : weight straight = [] ∧ weight (.char '\'') = [] ∧ weight (.char '“') = []
    ∧ weight (.char '”') = [] ∧ weight ldquo = [] ∧ weight rdquo = [] ∧ weight lsquo = []
    ∧ weight rsquo = [] ∧ weight (.entity .quot) = [] := by
  refine ⟨?_, ?_, ?_, ?_, ?_, ?_, ?_, ?_, ?_⟩ <;> exact hw.quote _ rfl

theorem detachedPair : Conserves weight detachedPair := by
  have hmarks := hw.marks
  rw [straight] at hmarks
  intro atStart gs hit h
  unfold Prose.detachedPair at h
  split at h
  · rename_i gs
    split at h
    · rename_i rest hrest
      cases h
      have htake := take_quoted gs 2
      rw [hrest] at htake
      simp [htake, flatMap_strip hw.blank, hmarks]
    · cases h
  · rename_i gs
    split at h
    · rename_i hrest
      cases h
      have htake := take_quoted gs 1
      rw [hrest] at htake
      simp [htake, flatMap_strip hw.blank, hmarks]
    · cases h
  · cases h

theorem assignedPair : Conserves weight assignedPair := by
  have hmarks := hw.marks
  rw [straight] at hmarks
  intro atStart gs hit h
  unfold Prose.assignedPair at h
  split at h
  · rename_i gs
    split at h
    · rename_i rest hrest
      cases h
      have htake := take_quoted gs 1
      rw [hrest] at htake
      simp [htake, hmarks]
    · cases h
  · rename_i gs
    split at h
    · rename_i rest hrest
      cases h
      have htake := take_quoted gs 2
      rw [hrest] at htake
      simp [htake, hmarks]
    · cases h
  · cases h

theorem setAs {curled : Char} {mark : Glyph} (hc : weight (.char curled) = [])
    (hm : weight mark = []) (g : Glyph) : weight (setAs curled mark g) = weight g := by
  unfold Prose.setAs
  split
  · rename_i h
    rcases h with rfl | rfl
    · rw [hm, hw.marks.1]
    · rw [hm, hc]
  · rfl

theorem openDouble : Conserves weight openDouble := by
  have hmarks := hw.marks
  have hset := hw.setAs hmarks.2.2.1 hmarks.2.2.2.2.1
  rw [straight] at hmarks
  intro atStart gs hit h
  unfold Prose.openDouble at h
  split at h
  · cases h
    simp [hmarks]
  · cases h
    simp [hmarks]
  · cases h
    simp [hmarks]
  · split at h
    · cases h
      simp [hmarks, hset]
    · cases h
  · cases h

theorem closeDouble : Conserves weight closeDouble := by
  have hmarks := hw.marks
  have hset := hw.setAs hmarks.2.2.2.1 hmarks.2.2.2.2.2.1
  rw [straight] at hmarks
  intro atStart gs hit h
  unfold Prose.closeDouble at h
  split at h
  · cases h
    simp [hmarks]
  · cases h
    simp [hmarks]
  · split at h
    · cases h
      simp [hmarks, hset]
    · cases h
  · cases h

theorem apostrophesBeforeWord : Conserves weight apostrophesBeforeWord := by
  intro atStart gs hit h
  unfold Prose.apostrophesBeforeWord at h
  split at h
  · split at h
    · cases h
      simp [hw.marks]
    · cases h
  · cases h

theorem apostrophesAfterWord : Conserves weight apostrophesAfterWord := by
  intro atStart gs hit h
  unfold Prose.apostrophesAfterWord at h
  split at h
  · split at h
    · cases h
    · split at h
      · cases h
        simp
      · split at h
        · cases h
          simp [hw.marks]
        · cases h
          simp [hw.marks]
  · cases h

theorem apostrophesAtEnd : Conserves weight apostrophesAtEnd := by
  intro atStart gs hit h
  unfold Prose.apostrophesAtEnd at h
  split at h
  · cases h
    simp [hw.marks]
  · cases h

theorem endWordApostrophes (inWord : Bool) (gs : List Glyph) :
    (endWordApostrophes inWord gs).flatMap weight = gs.flatMap weight := by
  fun_induction Prose.endWordApostrophes inWord gs with
  | case1 => rfl
  | case2 => simp [hw.marks]
  | case3 gs ih => simp [hw.marks, ih]
  | case4 inWord gs _ _ ih => simp [ih]
  | case5 inWord g gs _ _ _ ih => simp [ih]

theorem endApostrophes (gs : List Glyph) :
    (endApostrophes gs).flatMap weight = gs.flatMap weight := by
  unfold Prose.endApostrophes
  split
  · rename_i h
    simp [h, hw.marks]
  · exact hw.endWordApostrophes false gs

theorem apostropheAfterParen : Conserves weight apostropheAfterParen :=
  conserves_exactly (by simp [hw.marks])

theorem apostropheBeforeParen : Conserves weight apostropheBeforeParen :=
  conserves_exactly (by simp [hw.marks])

theorem contraction : Conserves weight contraction := by
  intro atStart gs hit h
  unfold Prose.contraction at h
  split at h
  · cases h
    simp [hw.marks]
  · cases h
    simp [hw.marks]
  · cases h
    simp [hw.marks]
  · cases h
    simp [hw.marks]
  · cases h

theorem leftover (gs : List Glyph) :
    (gs.map leftover).flatMap weight = gs.flatMap weight := by
  rw [List.flatMap_map]
  refine List.flatMap_congr ?_
  intro g _
  unfold Prose.leftover
  split
  · rename_i h
    rw [h, hw.marks.1, hw.marks.2.2.2.2.2.2.2.2]
  · rfl

theorem setQuotes (gs : List Glyph) : (setQuotes gs).flatMap weight = gs.flatMap weight := by
  unfold Prose.setQuotes
  rw [hw.leftover, hw.contraction.replace, hw.apostropheBeforeParen.replace,
    hw.apostropheAfterParen.replace, hw.endApostrophes, hw.apostrophesAtEnd.replace,
    hw.apostrophesAfterWord.replace, hw.apostrophesBeforeWord.replace, hw.closeDouble.replace,
    hw.openDouble.replace, hw.assignedPair.replace, hw.detachedPair.replace]

/-! ## Signs -/

theorem letterSign {letter : Char} {sign : Html.Entity} (hl : letter.toLower = letter)
    (hs : weight (.entity sign) = ['(', letter, ')'].flatMap fun c => weight (.char c)) :
    Conserves weight (letterSign letter sign) := by
  intro atStart gs hit h
  unfold Prose.letterSign at h
  split at h
  · rename_i c _
    split at h
    · rename_i hc
      cases h
      simp [hs, hw.caseless c letter (hc.trans hl.symm)]
    · cases h
  · cases h

theorem tradeMark : Conserves weight tradeMark := by
  intro atStart gs hit h
  unfold Prose.tradeMark at h
  split at h
  · rename_i t m _
    split at h
    · rename_i htm
      cases h
      simp [hw.trade, hw.caseless t 't' htm.1, hw.caseless m 'm' htm.2]
    · cases h
  · cases h

theorem setSigns (gs : List Glyph) : (setSigns gs).flatMap weight = gs.flatMap weight := by
  unfold Prose.setSigns
  rw [hw.tradeMark.replace, (hw.letterSign rfl hw.copy).replace,
    (hw.letterSign rfl hw.reg).replace]

/-- **Setting a text changes its weight in no way.** -/
theorem glyphs (text : String) : (glyphs text).flatMap weight
    = (Glyph.ofText (Comment.removeOnLine text).toList).flatMap weight := by
  unfold Prose.glyphs
  rw [hw.setSigns, hw.setQuotes]

end IsFair

end MarkdownPreview.Prose
