import MarkdownPreview.Text.Caseless
import Mathlib.Data.List.Basic

/-!
# Keywords in any case

A keyword is found at the start of a text exactly if the text starts with characters that are the
keyword once they are folded (`dropCaseless?_eq_some_iff`). Folding touches letters only, so what is
no letter stands in the text as it stands in the keyword (`eq_of_foldCase_eq`).
-/

set_option autoImplicit false

namespace MarkdownPreview.Text

variable {word cs rest : List Char} {c w : Char}

/-- A character of ASCII that is no letter. -/
def isSign (c : Char) : Bool :=
  let n := c.toNat
  n < 0x41 || (0x5A < n && n < 0x61) || (0x7A < n && n < 0x80)

theorem toNat_toLower_of_ne (h : c.toLower ≠ c) :
    0x61 ≤ c.toLower.toNat ∧ c.toLower.toNat ≤ 0x7A := by
  unfold Char.toLower at h ⊢
  split
  · rename_i hupper
    obtain ⟨hfirst, hlast⟩ : 0x41 ≤ c.val.toNat ∧ c.val.toNat ≤ 0x5A := hupper
    have hgap : ('a'.val - 'A'.val).toNat = 0x20 := rfl
    simp only [Char.toNat, UInt32.toNat_add, hgap]
    omega
  · rename_i hupper
    rw [dif_neg hupper] at h
    exact absurd rfl h

theorem eq_of_foldCase_eq (hw : isSign w = true) (h : foldCase c = w) : c = w := by
  unfold foldCase at h
  split at h
  · rw [← h] at hw
    exact absurd hw (by decide)
  · split at h
    · rw [← h] at hw
      exact absurd hw (by decide)
    · by_contra hne
      have hletter := toNat_toLower_of_ne fun hsame => hne (hsame.symm.trans h)
      rw [h] at hletter
      simp only [isSign, Bool.or_eq_true, Bool.and_eq_true, decide_eq_true_eq] at hw
      omega

theorem dropCaseless?_eq_some_iff : dropCaseless? word cs = some rest
    ↔ ∃ start, start.map foldCase = word ∧ cs = start ++ rest := by
  induction word generalizing cs with
  | nil =>
    simp only [dropCaseless?, Option.some.injEq, List.map_eq_nil_iff, exists_eq_left,
      List.nil_append]
  | cons w word ih =>
    constructor
    · intro h
      cases cs with
      | nil => cases h
      | cons c cs =>
        rw [dropCaseless?] at h
        split at h
        · rename_i hc
          obtain ⟨start, hstart, rfl⟩ := ih.mp h
          exact ⟨c :: start, by rw [List.map_cons, hc, hstart], rfl⟩
        · cases h
    · rintro ⟨start, hstart, rfl⟩
      obtain ⟨c, start, rfl, hc, hrest⟩ := List.map_eq_cons_iff.mp hstart
      rw [List.cons_append, dropCaseless?, if_pos hc]
      exact ih.mpr ⟨start, hrest, rfl⟩

end MarkdownPreview.Text
