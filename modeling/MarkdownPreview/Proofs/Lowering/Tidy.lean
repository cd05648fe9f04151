import Mathlib.Data.List.Chain
import MarkdownPreview.Proofs.Lowering.Line
import MarkdownPreview.Proofs.Lowering.Texts
import MarkdownPreview.Proofs.Text.Trim

/-!
# The normal form of running text

However the text of a block comes in, its tokens end up `Tidy`: no text is empty or has a line feed,
no two texts stand side by side, and there are no spaces around a line break. All but the first is
said of neighbours (`Beside`), so it can be kept up where the line grows, at its newest token.

A break is the one thing that changes what is there: it drops spaces at the end of the text before
it, and that text as a whole if nothing else is in it. What comes to stand before the break then is
no text, since no two of them were side by side.

All texts of a document are lines of this kind (`IsBlockText`): those made from nodes, and the
rejected definition that is put back as it was written.
-/

set_option autoImplicit false

namespace MarkdownPreview.Markdown

open Text

variable {acceptance : Acceptance} {p : Node → Bool} {s : Setting} {ts : List Token}
  {t u : Token} {c : Char}

/-! ## Tidy tokens -/

def IsBreak (t : Token) : Prop := t.kind = .softbreak ∨ t.kind = .hardbreak

instance : DecidablePred IsBreak := fun _ => inferInstanceAs (Decidable (_ ∨ _))

/-- Whether the one token may stand directly before the other. -/
structure Beside (t u : Token) : Prop where
  apart : ¬ (t.kind = .text ∧ u.kind = .text)
  before : t.kind = .text → IsBreak u → t.content.toList.getLast? ≠ some ' '
  after : IsBreak t → u.kind = .text → u.content.toList.head? ≠ some ' '

/-- A token that has something in it and stays on its line, if it is text. -/
def IsFilled (t : Token) : Prop :=
  t.kind = .text → t.content.toList ≠ [] ∧ '\n' ∉ t.content.toList

structure Tidy (ts : List Token) : Prop where
  filled : ∀ t ∈ ts, IsFilled t
  beside : ts.IsChain Beside

theorem tidy_nil : Tidy [] := ⟨List.forall_mem_nil _, .nil⟩

/-- Tokens newest first: the newest is told against the one before it. -/
theorem tidy_reverse_cons : Tidy (u :: ts).reverse ↔
    IsFilled u ∧ (∀ t ∈ ts.head?, Beside t u) ∧ Tidy ts.reverse := by
  constructor
  · intro ⟨hfilled, hbeside⟩
    rw [List.isChain_reverse, List.isChain_cons] at hbeside
    refine ⟨hfilled u (by simp), hbeside.1, ?_, List.isChain_reverse.mpr hbeside.2⟩
    intro t ht
    exact hfilled t (by rw [List.reverse_cons]; exact List.mem_append_left _ ht)
  · intro ⟨hu, hbeside, hfilled, hchain⟩
    refine ⟨?_, List.isChain_reverse.mpr (List.isChain_cons.mpr
      ⟨hbeside, List.isChain_reverse.mp hchain⟩)⟩
    intro t ht
    rw [List.mem_reverse, List.mem_cons] at ht
    rcases ht with rfl | ht
    · exact hu
    · exact hfilled t (List.mem_reverse.mpr ht)

theorem kind_ne_text_of_isBreak (h : IsBreak t) : t.kind ≠ .text := by
  rcases h with h | h <;> rw [h] <;> exact nofun

theorem isAfterBreak_cons : isAfterBreak (t :: ts) = true ↔ IsBreak t := by
  simp [isAfterBreak, IsBreak]

/-! ## What is added -/

/-- A token that is neither text nor a break may come after any other. -/
theorem tidy_cons_firm (hu : isLoose u = false) (h : Tidy ts.reverse) : Tidy (u :: ts).reverse := by
  simp only [isLoose, Bool.or_eq_false_iff, beq_eq_false_iff_ne] at hu
  obtain ⟨⟨htext, hsoft⟩, hhard⟩ := hu
  refine tidy_reverse_cons.mpr ⟨fun hk => absurd hk htext, ?_, h⟩
  intro t _
  exact ⟨fun hk => htext hk.2, fun _ hb => absurd hb (not_or.mpr ⟨hsoft, hhard⟩),
    fun _ hk => absurd hk htext⟩

/-- Without its last spaces a line is still tidy, and a break may follow. -/
theorem tidy_dropLastSpaces (h : Tidy ts.reverse) : Tidy (dropLastSpaces ts).reverse ∧
    ∀ t ∈ (dropLastSpaces ts).head?, t.kind = .text → t.content.toList.getLast? ≠ some ' ' := by
  cases ts with
  | nil => exact ⟨h, nofun⟩
  | cons u ts =>
    obtain ⟨hu, hbeside, hts⟩ := tidy_reverse_cons.mp h
    rw [dropLastSpaces]
    split
    · rename_i hk
      dsimp only
      split
      · -- The text was all spaces, and what stood before it is no text.
        refine ⟨hts, ?_⟩
        intro t ht htext
        exact absurd ⟨htext, hk⟩ (hbeside t ht).apart
      · rename_i hkept
        rw [List.isEmpty_iff] at hkept
        refine ⟨tidy_reverse_cons.mpr ⟨?_, ?_, hts⟩, ?_⟩
        · intro _
          simp only [String.toList_ofList]
          exact ⟨hkept, fun hmem => (hu hk).2 (mem_of_mem_dropEndWhile hmem)⟩
        · intro t ht
          have hold := hbeside t ht
          refine ⟨hold.apart, fun _ hb => absurd hk (kind_ne_text_of_isBreak hb), ?_⟩
          intro hb _
          simp only [String.toList_ofList]
          rw [head?_dropEndWhile hkept]
          exact hold.after hb hk
        · intro t ht _
          obtain rfl := Option.some.inj ht
          simp only [String.toList_ofList]
          exact getLast?_dropEndWhile_ne (by simp) _
    · rename_i hk
      refine ⟨h, ?_⟩
      intro t ht htext
      obtain rfl := Option.some.inj ht
      exact absurd htext hk

theorem tidy_cons_break (hu : IsBreak u) (h : Tidy ts.reverse) :
    Tidy (u :: dropLastSpaces ts).reverse := by
  obtain ⟨hkept, hends⟩ := tidy_dropLastSpaces h
  have hk := kind_ne_text_of_isBreak hu
  refine tidy_reverse_cons.mpr ⟨fun htext => absurd htext hk, ?_, hkept⟩
  intro t ht
  exact ⟨fun hboth => hk hboth.2, fun htext _ => hends t ht htext, fun _ htext => absurd htext hk⟩

/-- A character that starts a new text. -/
theorem tidy_cons_text (hc : c ≠ '\n') (hk : ∀ t ∈ ts.head?, t.kind ≠ .text)
    (hspace : ¬ (c = ' ' ∧ isAfterBreak ts = true)) (h : Tidy ts.reverse) :
    Tidy (Token.text c.toString :: ts).reverse := by
  have hcontent : (Token.text c.toString).content.toList = [c] := by
    show (String.singleton c).toList = [c]
    exact String.toList_singleton c
  refine tidy_reverse_cons.mpr ⟨?_, ?_, h⟩
  · intro _
    rw [hcontent]
    exact ⟨List.cons_ne_nil _ _, by simpa using hc.symm⟩
  · intro t ht
    refine ⟨fun hboth => hk t ht hboth.1, fun htext => absurd htext (hk t ht), ?_⟩
    intro hb _ hhead
    rw [hcontent] at hhead
    cases ts with
    | nil => cases ht
    | cons u ts =>
      obtain rfl := Option.some.inj ht
      exact hspace ⟨Option.some.inj hhead, isAfterBreak_cons.mpr hb⟩

/-- A character that goes to the text before it. -/
theorem tidy_push (hc : c ≠ '\n') (hk : t.kind = .text) (h : Tidy (t :: ts).reverse) :
    Tidy ({ t with content := t.content.push c } :: ts).reverse := by
  obtain ⟨ht, hbeside, hts⟩ := tidy_reverse_cons.mp h
  obtain ⟨hne, hline⟩ := ht hk
  refine tidy_reverse_cons.mpr ⟨?_, ?_, hts⟩
  · intro _
    simp only [String.toList_push]
    refine ⟨by simp, ?_⟩
    rw [List.mem_append, List.mem_singleton]
    exact fun hmem => hmem.elim hline hc.symm
  · intro u hu
    have hold := hbeside u hu
    refine ⟨hold.apart, fun _ hb => absurd hk (kind_ne_text_of_isBreak hb), ?_⟩
    intro hb _
    simp only [String.toList_push]
    rw [List.head?_append_of_ne_nil _ hne]
    exact hold.after hb hk

theorem tidy_addChar (c : Char) (h : Tidy ts.reverse) : Tidy (addChar ts c).reverse := by
  unfold addChar
  split
  · exact tidy_cons_break (.inl rfl) h
  · rename_i hc
    split
    · exact h
    · rename_i hspace
      rw [Bool.and_eq_true, decide_eq_true_eq] at hspace
      split
      · exact tidy_cons_text hc nofun hspace h
      · rename_i t rest
        split
        · rename_i hk
          exact tidy_push hc hk h
        · rename_i hk
          refine tidy_cons_text hc ?_ hspace h
          intro u hu
          obtain rfl := Option.some.inj hu
          exact hk

theorem tidy_addText (text : List Char) (h : Tidy ts.reverse) : Tidy (addText ts text).reverse := by
  rw [addText_eq_foldl]
  induction text generalizing ts with
  | nil => exact h
  | cons c text ih => exact ih (tidy_addChar c h)

/-- **Whatever is added to a tidy line, it stays tidy.** -/
theorem Grows.tidy {l m : Line} (hg : Grows acceptance p l m) (h : Tidy l.newest.reverse) :
    Tidy m.newest.reverse := by
  induction hg with
  | refl => exact h
  | trans _ _ ihl ihm => exact ihm (ihl h)
  | push l text => exact tidy_addText text h
  | hardBreak l => exact tidy_cons_break (.inr rfl) h
  | code | html | picture => exact tidy_cons_firm rfl h
  | span e tag markup _ _ ih => exact tidy_cons_firm rfl (ih (tidy_cons_firm rfl h))
  | link url title? markup _ _ _ ih => exact tidy_cons_firm rfl (ih (tidy_cons_firm rfl h))

theorem tidy_inlineTokens (s : Setting) (ns : List Node) : Tidy (inlineTokens s ns) := by
  have hg : Grows s.acceptance (fun _ => true) {} (inlines s ns {}) :=
    inlines_grows s ns {} (allOf_true ns)
  exact hg.tidy tidy_nil

/-! ## The texts of a document -/

/-- What an `inline` token of a document is: the text of some nodes, or a stretch of the source that
is put back. -/
inductive IsBlockText (s : Setting) : Token → Prop
  | nodes (depth : Nat) (ns : List Node) : IsBlockText s (textToken s depth ns)
  | literal (text : List Char) :
      IsBlockText s (Token.inline (String.ofList text) (addText [] text).reverse)

/-- The `inline` tokens of a level are texts of blocks. -/
def TextsOf (s : Setting) (ts : List Token) : Prop := ∀ t ∈ ts, t.kind = .inline → IsBlockText s t

theorem IsTextOf.isBlockText {b : Stretch} (h : IsTextOf s t b) : IsBlockText s t := by
  cases h with
  | nodes depth ns => exact .nodes depth ns
  | definition depth text => exact .literal text

theorem HasTexts.textsOf {bs : List Stretch} (h : HasTexts s ts bs) : TextsOf s ts := by
  have htexts : ∀ t ∈ texts ts, IsBlockText s t :=
    ((List.forall₂_and_left _ _).mp (h.imp fun t b hb => ⟨hb.isBlockText, hb⟩)).1
  exact fun t ht hk => htexts t (List.mem_filter.mpr ⟨ht, beq_iff_eq.mpr hk⟩)

theorem textsOf_block (depth : Nat) (n : Node) : TextsOf s (block s depth n) :=
  (hasTexts_block depth n).textsOf

theorem IsBlockText.tidy (h : IsBlockText s t) (hs : s.superscript = false) :
    ∃ us, t.children = some us ∧ Tidy us := by
  cases h with
  | nodes depth ns =>
    refine ⟨inlineTokens s ns, ?_, tidy_inlineTokens s ns⟩
    simp [textToken, Token.inline, hs]
  | literal text => exact ⟨_, rfl, tidy_addText text tidy_nil⟩

/-- **The text of every block of a document is tidy**, where superscripts are not read. -/
theorem tokens_tidy (source : String) (acceptance : Acceptance) (root : Node) :
    ∀ t ∈ tokens source acceptance false root, t.kind = .inline →
      ∃ us, t.children = some us ∧ Tidy us := by
  intro t ht hk
  exact (textsOf_block 0 root t ht hk).tidy rfl

/-- A link to a script, which is put back as it was written, over a break with spaces around it, and
a break after an element and nothing but spaces. -/
def rejectedLink : Node :=
  .root none [.paragraph (some ⟨0, 33⟩)
    [.text (some ⟨0, 2⟩) "a ", .link (some ⟨2, 24⟩) "javascript:d" none
      [.text (some ⟨3, 9⟩) "b \n  c"], .strong (some ⟨24, 29⟩) [.text (some ⟨26, 27⟩) "e"],
      .text (some ⟨29, 31⟩) "  ", .lineBreak none, .text (some ⟨32, 33⟩) " f"]]

theorem rejectedLink_tidy :
    let source := "a [b \n  c](javascript:d)**e**  \nf"
    let t := Token.inline "a [b \nc](javascript:d)**e**  \nf"
      [Token.text "a [b", breakToken .softbreak, Token.text "c](javascript:d)",
        Token.spanOpening .strong "strong" "**", Token.text "e",
        Token.spanClosing .strong "strong" "**", breakToken .hardbreak, Token.text "f"]
    t ∈ tokens source .strict false rejectedLink ∧ t.kind = .inline
      ∧ ∃ us, t.children = some us ∧ Tidy us := by
  intro source t
  have ht : t ∈ tokens source .strict false rejectedLink := by decide +kernel
  exact ⟨ht, rfl, tokens_tidy source .strict rejectedLink t ht rfl⟩

end MarkdownPreview.Markdown
