import Mathlib.Data.List.Basic
import MarkdownPreview.Proofs.Prose.Weight

/-!
# Reading prose back

Written prose is read back by reading its references, in one pass from the left (`reference`). Since
no reference starts with another one, and no `&` is left in prose but as the start of a reference,
what is read is what was written, glyph by glyph (`scan_reference`).

Two things follow. Reading the references back gives the text that was set, up to quotes, blanks and
the case of letters (`essence_readReferences_escape`): prose escaping loses, invents and moves
nothing. And written prose has no bracket, no double quote, straight or curled, and no `&` that is
not the start of just one reference (`escape_closed`).
-/

set_option autoImplicit false

namespace MarkdownPreview

open Text

/-! ## References -/

namespace Html.Entity

def all : List Entity :=
  [.amp, .lt, .gt, .quot, .ldquo, .rdquo, .lsquo, .rsquo, .reg, .copy, .trade]

theorem mem_all (e : Entity) : e ∈ all := by
  cases e <;> decide

/-- The text that a reference stands for; a quote stands for none. -/
def meaning : Entity → List Char
  | .amp => ['&']
  | .lt => ['<']
  | .gt => ['>']
  | .reg => ['(', 'r', ')']
  | .copy => ['(', 'c', ')']
  | .trade => ['(', 't', 'm', ')']
  | .quot | .ldquo | .rdquo | .lsquo | .rsquo => []

/-- Whether a reference stands for a character that has to be escaped. -/
def isBracket (e : Entity) : Bool := e == .amp || e == .lt || e == .gt

/-- No reference is the start of another one. -/
theorem eq_of_prefix {e e' : Entity} {cs : List Char} (h : e.chars <+: cs) (h' : e'.chars <+: cs) :
    e = e' := by
  have hall : ∀ e ∈ all, ∀ e' ∈ all, e.chars <+: e'.chars → e = e' := by decide
  rcases List.prefix_or_prefix_of_prefix h h' with h | h
  · exact hall e e.mem_all e' e'.mem_all h
  · exact (hall e' e'.mem_all e e.mem_all h).symm

theorem chars_eq (e : Entity) : e.chars = '&' :: e.chars.tail := rfl

theorem amp_not_mem_tail (e : Entity) : '&' ∉ e.chars.tail := by
  cases e <;> decide

end Html.Entity

namespace Prose

open Html (Entity)

/-- Recognises a reference. -/
def reference : Recogniser Char Entity := fun _ cs =>
  (Entity.all.find? fun e => e.chars.isPrefixOf cs).map fun e => ⟨e, e.chars.length - 1⟩

/-- A text with its references read. -/
def readReferences (cs : List Char) : List Char :=
  (scan reference cs).flatMap (Sum.elim (fun c => [c]) Entity.meaning)

/-- The references in a text. -/
def references (cs : List Char) : List Entity := (scan reference cs).filterMap Sum.getRight?

theorem steady_reference : Steady reference := fun _ _ => rfl

theorem reference_eq_some {e : Entity} {cs : List Char} (h : e.chars <+: cs) :
    reference true cs = some ⟨e, e.chars.length - 1⟩ := by
  have hfind : (Entity.all.find? fun e => e.chars.isPrefixOf cs) = some e := by
    cases hf : Entity.all.find? fun e => e.chars.isPrefixOf cs with
    | none =>
      have hmiss := List.find?_eq_none.mp hf e e.mem_all
      exact absurd (List.isPrefixOf_iff_prefix.mpr h) hmiss
    | some e' =>
      have hit := List.find?_some hf
      rw [Entity.eq_of_prefix (List.isPrefixOf_iff_prefix.mp hit) h]
  rw [reference, hfind]
  rfl

theorem reference_eq_none {c : Char} (hc : c ≠ '&') (cs : List Char) :
    reference true (c :: cs) = none := by
  have hfind : (Entity.all.find? fun e => e.chars.isPrefixOf (c :: cs)) = none := by
    rw [List.find?_eq_none]
    intro e _ h
    obtain ⟨rest, hrest⟩ := List.isPrefixOf_iff_prefix.mp h
    rw [e.chars_eq, List.cons_append, List.cons.injEq] at hrest
    exact hc hrest.1.symm
  rw [reference, hfind]
  rfl

namespace Glyph

def read : Glyph → Char ⊕ Entity
  | .char c => .inl c
  | .entity e => .inr e

/-- The text that a glyph stands for. -/
def meaning : Glyph → List Char
  | .char c => [c]
  | .entity e => e.meaning

/-- The references that stand for characters that have to be escaped. -/
def brackets : Glyph → List Entity
  | .char _ => []
  | .entity e => if e.isBracket then [e] else []

end Glyph

variable {gs : List Glyph}

/-- **Glyphs are read as they are written**, if none of them is an ampersand. -/
theorem scan_reference (h : ∀ g ∈ gs, g ≠ .char '&') :
    scan reference (gs.flatMap Glyph.chars) = gs.map Glyph.read := by
  induction gs with
  | nil => rfl
  | cons g gs ih =>
    rw [List.forall_mem_cons] at h
    rw [List.flatMap_cons, List.map_cons, ← ih h.2]
    cases g with
    | char c =>
      have hc : c ≠ '&' := fun hc => h.1 (hc ▸ rfl)
      exact steady_reference.scan_miss (reference_eq_none hc _)
    | entity e =>
      have hit := reference_eq_some (List.prefix_append e.chars (gs.flatMap Glyph.chars))
      have hskip : (e.chars.tail ++ gs.flatMap Glyph.chars).drop (e.chars.length - 1)
          = gs.flatMap Glyph.chars := by
        rw [← List.length_tail, List.drop_left]
      rw [e.chars_eq, List.cons_append] at hit
      calc scan reference ('&' :: (e.chars.tail ++ gs.flatMap Glyph.chars))
          = .inr e :: scan reference
              ((e.chars.tail ++ gs.flatMap Glyph.chars).drop (e.chars.length - 1)) :=
            steady_reference.scan_hit hit
        _ = .inr e :: scan reference (gs.flatMap Glyph.chars) := by rw [hskip]

theorem readReferences_chars (h : ∀ g ∈ gs, g ≠ .char '&') :
    readReferences (gs.flatMap Glyph.chars) = gs.flatMap Glyph.meaning := by
  rw [readReferences, scan_reference h, List.flatMap_map]
  refine List.flatMap_congr ?_
  intro g _
  cases g <;> rfl

theorem filter_references_chars (h : ∀ g ∈ gs, g ≠ .char '&') :
    (references (gs.flatMap Glyph.chars)).filter Entity.isBracket = gs.flatMap Glyph.brackets := by
  rw [references, scan_reference h]
  clear h
  induction gs with
  | nil => rfl
  | cons g gs ih =>
    rw [List.flatMap_cons, ← ih, List.map_cons]
    cases g with
    | char c => simp only [Glyph.read, Glyph.brackets, List.filterMap_cons, Sum.getRight?,
        List.nil_append]
    | entity e =>
      simp only [Glyph.read, Glyph.brackets, List.filterMap_cons, Sum.getRight?, List.filter_cons]
      by_cases he : e.isBracket = true <;> simp [he]

/-- Every ampersand that is written starts a reference. -/
theorem exists_prefix_of_flatMap_chars {before after : List Char} (h : ∀ g ∈ gs, g ≠ .char '&')
    (heq : gs.flatMap Glyph.chars = before ++ '&' :: after) :
    ∃ e : Entity, e.chars <+: '&' :: after := by
  induction gs generalizing before with
  | nil => simp at heq
  | cons g gs ih =>
    rw [List.forall_mem_cons] at h
    rw [List.flatMap_cons] at heq
    rcases List.append_eq_append_iff.mp heq with ⟨between, rfl, hrest⟩ | ⟨between, hg, hrest⟩
    · exact ih h.2 hrest
    · cases between with
      | nil => exact @ih [] h.2 hrest.symm
      | cons c between =>
        -- The ampersand lies within this glyph, so it is the start of it.
        rw [List.cons_append, List.cons.injEq] at hrest
        obtain ⟨rfl, rfl⟩ := hrest
        cases g with
        | char c =>
          cases before with
          | nil =>
            rw [Glyph.chars, List.nil_append, List.cons.injEq] at hg
            exact absurd (congrArg Glyph.char hg.1) h.1
          | cons => simp [Glyph.chars] at hg
        | entity e =>
          cases before with
          | nil =>
            refine ⟨e, gs.flatMap Glyph.chars, ?_⟩
            rw [show e.chars = '&' :: between from hg]
            rfl
          | cons d before =>
            refine absurd ?_ e.amp_not_mem_tail
            rw [show e.chars = d :: (before ++ '&' :: between) from hg]
            simp

/-! ## Which glyphs prose has -/

theorem clears_openDouble (gs : List Glyph) : ∀ g ∈ replace openDouble gs, g ≠ .char '“' := by
  apply forall_mem_replace
  · intro b xs hit h
    unfold openDouble at h
    split at h
    · cases h
      simp [ldquo]
    · cases h
      simp [ldquo]
    · cases h
      simp [ldquo]
    · split at h
      · rename_i hgap
        cases h
        rw [Bool.and_eq_true] at hgap
        unfold setAs
        intro x hx hq
        subst hq
        simp only [List.mem_cons, List.not_mem_nil, or_false] at hx
        rcases hx with rfl | hx | hx
        · exact absurd hgap.1 (by decide)
        · cases hx
        · split at hx
          · cases hx
          · rename_i hne
            exact hne (.inr hx.symm)
      · cases h
    · cases h
  · intro b x xs h hx
    subst hx
    simp [openDouble] at h

theorem clears_closeDouble (gs : List Glyph) : ∀ g ∈ replace closeDouble gs, g ≠ .char '”' := by
  apply forall_mem_replace
  · intro b xs hit h
    unfold closeDouble at h
    split at h
    · cases h
      simp [rdquo]
    · cases h
      simp [rdquo]
    · split at h
      · rename_i hgap
        cases h
        rw [Bool.and_eq_true] at hgap
        unfold setAs
        intro x hx hq
        subst hq
        simp only [List.mem_cons, List.not_mem_nil, or_false] at hx
        rcases hx with hx | hx | rfl
        · split at hx
          · cases hx
          · rename_i hne
            exact hne (.inr hx.symm)
        · cases hx
        · exact absurd hgap.2 (by decide)
      · cases h
    · cases h
  · intro b x xs h hx
    subst hx
    simp [closeDouble] at h

/-- What is not left in prose as a character. -/
def setCharacters : List Char := ['&', '<', '>', '"', '“', '”']

theorem ofChar_ne (c : Char) : ∀ d ∈ ['&', '<', '>'], Glyph.ofChar c ≠ .char d := by
  intro d hd h
  unfold Glyph.ofChar at h
  split at h
  · cases h
  · rename_i hc
    cases h
    simp only [List.mem_cons, List.not_mem_nil, or_false] at hd
    rcases hd with rfl | rfl | rfl <;> cases hc

theorem glyphs_ne (text : String) : ∀ g ∈ glyphs text, ∀ d ∈ setCharacters, g ≠ .char d := by
  intro g hg d hd
  have hP (e : Entity) : Glyph.entity e ≠ .char d := nofun
  have hsigns (h : ∀ g ∈ setQuotes (Glyph.ofText (Comment.removeOnLine text).toList),
      g ≠ .char d) : g ≠ .char d := forall_mem_setSigns hP h g hg
  have hescaped (hd : d ∈ ['&', '<', '>']) : g ≠ .char d := by
    refine hsigns (forall_mem_setQuotes hP ?_)
    intro u hu
    obtain ⟨c, -, rfl⟩ := List.mem_map.mp hu
    exact ofChar_ne c d hd
  simp only [setCharacters, List.mem_cons, List.not_mem_nil, or_false] at hd
  rcases hd with rfl | rfl | rfl | rfl | rfl | rfl
  · exact hescaped (by decide)
  · exact hescaped (by decide)
  · exact hescaped (by decide)
  · exact hsigns fun _ hg => ne_straight_of_mem_setQuotes hg
  · refine hsigns ?_
    rw [setQuotes_eq]
    exact forall_mem_setApostrophes hP (forall_mem_pass hP draws_closeDouble (clears_openDouble _))
  · refine hsigns ?_
    rw [setQuotes_eq]
    exact forall_mem_setApostrophes hP (clears_closeDouble _)

theorem toList_escape (text : String) :
    (escape text).toList = (glyphs text).flatMap Glyph.chars := by
  rw [escape, String.toList_ofList]

/-! ## Nothing is lost -/

/-- Whether a character is a quote, straight or curled, or a blank. -/
def isIdle (c : Char) : Bool :=
  c == '"' || c == '\'' || c == '“' || c == '”' || isBlank c

/-- What there is in a text besides quotes and blanks, in small letters. -/
def essence (cs : List Char) : List Char := (cs.filter fun c => !isIdle c).map Char.toLower

theorem essence_flatMap (f : Glyph → List Char) (gs : List Glyph) :
    essence (gs.flatMap f) = gs.flatMap fun g => essence (f g) := by
  simp [essence, List.filter_flatMap, List.map_flatMap]

theorem isIdle_of_letter {c : Char} (hl : 65 ≤ c.toNat) (hu : c.toNat ≤ 122) :
    isIdle c = false := by
  have hmark (d : Char) (hd : d.toNat < 65 ∨ 122 < d.toNat) : (c == d) = false := by
    rw [beq_eq_false_iff_ne]
    rintro rfl
    omega
  have hblank : isBlank c = false := by
    simp only [isBlank, Bool.or_eq_false_iff, Bool.and_eq_false_iff, beq_eq_false_iff_ne,
      decide_eq_false_iff_not]
    omega
  rw [isIdle, hblank, hmark '"' (by decide), hmark '\'' (by decide), hmark '“' (by decide),
    hmark '”' (by decide)]
  rfl

theorem isUpper_iff {c : Char} : c.isUpper = true ↔ 65 ≤ c.toNat ∧ c.toNat ≤ 90 := by
  show decide (c.val ≥ 'A'.val ∧ c.val ≤ 'Z'.val) = true ↔ _
  rw [decide_eq_true_iff]
  exact and_congr UInt32.le_iff_toNat_le UInt32.le_iff_toNat_le

theorem toLower_of_not_isUpper {c : Char} (h : ¬c.isUpper = true) : c.toLower = c := by
  have hnone : ¬(c.val ≥ 'A'.val ∧ c.val ≤ 'Z'.val) := fun hrange => h (decide_eq_true hrange)
  exact dif_neg hnone

theorem toNat_toLower {c : Char} (h : c.isUpper = true) : c.toLower.toNat = c.toNat + 32 := by
  have hc : 65 ≤ c.toNat ∧ c.toNat ≤ 90 := isUpper_iff.mp h
  have hrange : c.val ≥ 'A'.val ∧ c.val ≤ 'Z'.val := of_decide_eq_true h
  have hlower : c.toLower = _ := dif_pos hrange
  rw [hlower]
  show (c.val + 32).toNat = c.toNat + 32
  simp [UInt32.toNat_add]
  omega

theorem essence_toLower (c : Char) : essence [c.toLower] = essence [c] := by
  by_cases h : c.isUpper = true
  · have hc : 65 ≤ c.toNat ∧ c.toNat ≤ 90 := isUpper_iff.mp h
    have hsmall : ¬c.toLower.isUpper = true := by
      rw [isUpper_iff, toNat_toLower h]
      omega
    have hidle : isIdle c.toLower = false := by
      apply isIdle_of_letter <;> rw [toNat_toLower h] <;> omega
    simp [essence, hidle, isIdle_of_letter hc.1 (by omega), toLower_of_not_isUpper hsmall]
  · rw [toLower_of_not_isUpper h]

theorem isFair_essence : IsFair fun g => essence g.meaning where
  quote g hg := by
    cases g with
    | char c =>
      simp only [Glyph.isQuote, Bool.or_eq_true, beq_iff_eq] at hg
      rcases hg with ((rfl | rfl) | rfl) | rfl <;> rfl
    | entity e =>
      cases e <;> first | rfl | cases hg
  blank g hg := by
    cases g with
    | char c =>
      have hc : isBlank c = true := hg
      simp [Glyph.meaning, essence, isIdle, hc]
    | entity e => cases hg
  caseless c d h := by
    show essence [c] = essence [d]
    rw [← essence_toLower c, h, essence_toLower]
  reg := by decide
  copy := by decide
  trade := by decide

/-- **Prose escaping loses, invents and moves nothing.** Its references read back, a text is what it
was without its comments, up to quotes, blanks and the case of letters. -/
theorem essence_readReferences_escape (text : String) :
    essence (readReferences (escape text).toList)
      = essence (Comment.removeOnLine text).toList := by
  have hno : ∀ g ∈ glyphs text, g ≠ .char '&' := fun g hg => glyphs_ne text g hg '&' (by decide)
  have hmeaning (c : Char) : (Glyph.ofChar c).meaning = [c] := by
    unfold Glyph.ofChar
    split
    · rename_i e he
      unfold Html.bracketEntity? at he
      split at he <;> cases he <;> rfl
    · rfl
  calc essence (readReferences (escape text).toList)
      = essence ((glyphs text).flatMap Glyph.meaning) := by
        rw [toList_escape, readReferences_chars hno]
    _ = (glyphs text).flatMap fun g => essence g.meaning := essence_flatMap _ _
    _ = (Glyph.ofText (Comment.removeOnLine text).toList).flatMap fun g => essence g.meaning :=
        isFair_essence.glyphs text
    _ = essence ((Glyph.ofText (Comment.removeOnLine text).toList).flatMap Glyph.meaning) :=
        (essence_flatMap _ _).symm
    _ = essence (Comment.removeOnLine text).toList := by
        rw [Glyph.ofText, List.flatMap_map]
        simp [hmeaning]

/-! ## Nothing is left open -/

theorem isFair_brackets : IsFair Glyph.brackets where
  quote g hg := by
    cases g with
    | char c => rfl
    | entity e => cases e <;> first | rfl | cases hg
  blank g hg := by
    cases g with
    | char c => rfl
    | entity e => cases hg
  caseless _ _ _ := rfl
  reg := rfl
  copy := rfl
  trade := rfl

theorem brackets_ofText (cs : List Char) :
    (Glyph.ofText cs).flatMap Glyph.brackets = cs.filterMap Html.bracketEntity? := by
  induction cs with
  | nil => rfl
  | cons c cs ih =>
    have hc : (Glyph.ofChar c).brackets = (Html.bracketEntity? c).toList := by
      unfold Glyph.ofChar Html.bracketEntity?
      split <;> rename_i h <;> split at h <;> cases h <;> rfl
    rw [Glyph.ofText, List.map_cons, List.flatMap_cons, ← Glyph.ofText, ih, hc,
      List.filterMap_cons]
    cases Html.bracketEntity? c <;> rfl

/-- **Prose as it is written is closed.** It has no bracket and no double quote, straight or curled;
every `&` in it starts just one reference; and the references to `&`, `<` and `>` are those to the
characters of the text, in order, so that none of them has been split or escaped again. -/
theorem escape_closed (text : String) :
    (∀ c ∈ (escape text).toList, c ∉ ['<', '>', '"', '“', '”'])
      ∧ (∀ before after, (escape text).toList = before ++ '&' :: after →
          ∃! e : Entity, e.chars <+: '&' :: after)
      ∧ (references (escape text).toList).filter Entity.isBracket
          = (Comment.removeOnLine text).toList.filterMap Html.bracketEntity? := by
  have hno : ∀ g ∈ glyphs text, g ≠ .char '&' := fun g hg => glyphs_ne text g hg '&' (by decide)
  rw [toList_escape]
  refine ⟨?_, ?_, ?_⟩
  · intro c hc hmem
    obtain ⟨g, hg, hc⟩ := List.mem_flatMap.mp hc
    cases g with
    | char d =>
      rw [Glyph.chars, List.mem_singleton] at hc
      exact glyphs_ne text _ hg c (List.mem_cons_of_mem _ hmem) (by rw [hc])
    | entity e =>
      have hclear : ∀ c ∈ ['<', '>', '"', '“', '”'], c ∉ e.chars :=
        List.forall_iff_forall_mem.mp (by cases e <;> decide)
      exact hclear c hmem hc
  · intro before after heq
    obtain ⟨e, he⟩ := exists_prefix_of_flatMap_chars hno heq
    exact ⟨e, he, fun e' he' => Entity.eq_of_prefix he' he⟩
  · rw [filter_references_chars hno, isFair_brackets.glyphs]
    exact brackets_ofText _

end Prose

end MarkdownPreview
