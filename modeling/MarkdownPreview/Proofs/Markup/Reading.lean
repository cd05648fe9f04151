import MarkdownPreview.Proofs.Markup.Escape
import MarkdownPreview.Proofs.Prose.Reference

/-!
# Reading HTML back

HTML is read back in two steps. A scan for tags (`tagMark`) gives the tags and what stands between
them; then the references in what stands between are read, once and from the left (`decode`). Neither
step knows who wrote the HTML.

`Writes` says that a piece of HTML is made of tags and of escaped characters, where nothing in a tag is
an angle bracket. Such a piece is read as it was written, in front of anything (`Writes.scan_append`),
so pieces can be put together.
-/

set_option autoImplicit false

namespace MarkdownPreview.Html

open Text

/-! ## Tags -/

/-- Whether a character can stand in a tag. -/
def inTag (c : Char) : Bool := c != '<' && c != '>'

/-- Recognises a tag, from a `<` to the `>` that ends it, and reads what stands between them; no
other angle bracket may. -/
def tagMark : Recogniser Char String := fun _ cs =>
  match cs with
  | '<' :: cs =>
    match cs.dropWhile inTag with
    | '>' :: _ => some ⟨String.ofList (cs.takeWhile inTag), (cs.takeWhile inTag).length + 1⟩
    | _ => none
  | _ => none

/-- The tags in a piece of HTML, each without its angle brackets. -/
def tagsIn (html : List Char) : List String := (scan tagMark html).filterMap Sum.getRight?

/-- What a piece of HTML has besides tags. -/
def betweenTags (html : List Char) : List Char := erase tagMark html

theorem steady_tagMark : Steady tagMark := fun _ _ => rfl

theorem scan_tag {tag : String} (h : ∀ c ∈ tag.toList, inTag c = true) (rest : List Char) :
    scan tagMark ('<' :: (tag.toList ++ '>' :: rest)) = .inr tag :: scan tagMark rest := by
  have hend : inTag '>' = false := by decide
  have htake : (tag.toList ++ '>' :: rest).takeWhile inTag = tag.toList := by
    rw [List.takeWhile_append_of_pos h, List.takeWhile_cons_of_neg (by simp [hend]), List.append_nil]
  have hdrop : (tag.toList ++ '>' :: rest).dropWhile inTag = '>' :: rest := by
    rw [List.dropWhile_append_of_pos h, List.dropWhile_cons_of_neg (by simp [hend])]
  have hit : tagMark true ('<' :: (tag.toList ++ '>' :: rest))
      = some ⟨tag, tag.toList.length + 1⟩ := by
    simp only [tagMark, hdrop, htake, String.ofList_toList]
  have hskip : (tag.toList ++ '>' :: rest).drop (tag.toList.length + 1) = rest := by
    rw [← List.drop_drop, List.drop_left, List.drop_succ_cons, List.drop_zero]
  rw [steady_tagMark.scan_hit hit, hskip]

theorem scan_plain {cs : List Char} (h : '<' ∉ cs) (rest : List Char) :
    scan tagMark (cs ++ rest) = cs.map .inl ++ scan tagMark rest := by
  induction cs with
  | nil => rfl
  | cons c cs ih =>
    rw [List.mem_cons, not_or] at h
    have hmiss : tagMark true (c :: (cs ++ rest)) = none := by
      unfold tagMark
      split
      · rename_i heq
        exact absurd (List.cons.inj heq).1.symm h.1
      · rfl
    rw [List.cons_append, steady_tagMark.scan_miss hmiss, ih h.2]
    rfl

/-! ## References -/

/-- What is read for a reference: one of those that escaping writes is a character, any other is left
as it stands. -/
def Entity.decoded : Entity → List Char
  | .amp => ['&']
  | .lt => ['<']
  | .gt => ['>']
  | .quot => ['"']
  | e => e.chars

/-- A text with its references to `&`, `<`, `>` and `"` read. -/
def decode (cs : List Char) : List Char :=
  (scan Prose.reference cs).flatMap (Sum.elim (fun c => [c]) Entity.decoded)

/-- How a character is escaped, as a glyph. -/
def escapedGlyph (c : Char) : Prose.Glyph := if c = '"' then .entity .quot else .ofChar c

theorem chars_escapedGlyph (c : Char) : (escapedGlyph c).chars = attrChar c := by
  unfold escapedGlyph attrChar bracketChar
  split
  · rfl
  · unfold Prose.Glyph.ofChar
    cases bracketEntity? c <;> rfl

theorem decoded_escapedGlyph (c : Char) :
    Sum.elim (fun c => [c]) Entity.decoded (escapedGlyph c).read = [c] := by
  unfold escapedGlyph
  split
  · rename_i hc
    rw [hc]
    rfl
  · unfold Prose.Glyph.ofChar bracketEntity?
    split <;> rename_i h <;> split at h <;> cases h <;> rfl

/-- **Escaping is undone by reading the references once.** -/
theorem decode_escaped (cs : List Char) : decode (cs.flatMap attrChar) = cs := by
  have hglyphs : cs.flatMap attrChar = (cs.map escapedGlyph).flatMap Prose.Glyph.chars := by
    rw [List.flatMap_map]
    exact List.flatMap_congr fun c _ => (chars_escapedGlyph c).symm
  have hno : ∀ g ∈ cs.map escapedGlyph, g ≠ .char '&' := by
    intro g hg
    obtain ⟨c, -, rfl⟩ := List.mem_map.mp hg
    unfold escapedGlyph
    split
    · exact nofun
    · exact Prose.ofChar_ne c '&' (by decide)
  rw [decode, hglyphs, Prose.scan_reference hno, List.flatMap_map, List.flatMap_map]
  conv_rhs => rw [← List.flatMap_singleton' cs]
  exact List.flatMap_congr fun c _ => decoded_escapedGlyph c

theorem inTag_of_mem_attrChar {c d : Char} (h : d ∈ attrChar c) : inTag d = true := by
  have hentity (e : Entity) : ∀ d ∈ e.chars, inTag d = true := by
    cases e <;> exact List.all_eq_true.mp (by decide)
  unfold attrChar at h
  split at h
  · exact hentity _ d h
  · unfold bracketChar bracketEntity? at h
    split at h
    · exact hentity _ d h
    · rename_i hc
      obtain rfl := List.mem_singleton.mp h
      split at hc
      · cases hc
      · cases hc
      · cases hc
      · rename_i hlt hgt
        simpa [inTag] using ⟨fun h => hlt h, fun h => hgt h⟩

/-! ## HTML made of tags and escaped characters -/

/-- A piece of HTML with the tags in it, and the characters that are escaped between them. -/
inductive Writes : (html : List Char) → (tags : List String) → (plain : List Char) → Prop
  | nil : Writes [] [] []
  | char (c : Char) {html plain : List Char} {tags : List String} (rest : Writes html tags plain) :
    Writes (attrChar c ++ html) tags (c :: plain)
  | tag {tag : String} {html plain : List Char} {tags : List String}
      (clean : ∀ c ∈ tag.toList, inTag c = true) (rest : Writes html tags plain) :
    Writes ('<' :: (tag.toList ++ '>' :: html)) (tag :: tags) plain

namespace Writes

variable {html html' plain plain' : List Char} {tags tags' : List String}

theorem append (h : Writes html tags plain) (h' : Writes html' tags' plain') :
    Writes (html ++ html') (tags ++ tags') (plain ++ plain') := by
  induction h with
  | nil => exact h'
  | char c _ ih =>
    rw [List.append_assoc]
    exact .char c ih
  | tag clean _ ih =>
    rw [List.cons_append, List.append_assoc, List.cons_append]
    exact .tag clean ih

theorem escaped (cs : List Char) : Writes (cs.flatMap attrChar) [] cs := by
  induction cs with
  | nil => exact .nil
  | cons c cs ih => exact .char c ih

/-- The tags are found, and nothing else is taken for a tag. -/
theorem tagsIn_eq (h : Writes html tags plain) : tagsIn html = tags := by
  induction h with
  | nil => rfl
  | char c _ ih =>
    rw [tagsIn, scan_plain (bracket_not_mem_attrChar c), List.filterMap_append, List.filterMap_map]
    simpa [Function.comp_def, tagsIn] using ih
  | tag clean _ ih =>
    rw [tagsIn, scan_tag clean, List.filterMap_cons]
    exact congrArg _ ih

/-- What is left without the tags are the escaped characters. -/
theorem betweenTags_eq (h : Writes html tags plain) : betweenTags html = plain.flatMap attrChar := by
  induction h with
  | nil => rfl
  | char c _ ih =>
    rw [betweenTags, erase, scan_plain (bracket_not_mem_attrChar c), List.filterMap_append,
      List.filterMap_map, List.flatMap_cons, ← ih]
    simp [Function.comp_def, betweenTags, erase]
  | tag clean _ ih =>
    rw [betweenTags, erase, scan_tag clean, List.filterMap_cons]
    exact ih

theorem decode_eq (h : Writes html tags plain) : decode (betweenTags html) = plain := by
  rw [h.betweenTags_eq, decode_escaped]

/-- Between the tags there is no angle bracket. -/
theorem forall_mem_betweenTags (h : Writes html tags plain) :
    ∀ c ∈ betweenTags html, inTag c = true := by
  rw [h.betweenTags_eq]
  intro c hc
  obtain ⟨d, -, hd⟩ := List.mem_flatMap.mp hc
  exact inTag_of_mem_attrChar hd

end Writes

end MarkdownPreview.Html
