import MarkdownPreview.Proofs.Text.Lines
import MarkdownPreview.Proofs.Variables.Raised
import MarkdownPreview.Sample.Html

/-!
# Variables line by line

A name lies on one line, so no variable goes over a line feed: a text is taken apart at its variables
line by line (`scan_markedName_break`). What is written for a text of code is written character by
character and name by name (`toList_codeHtml`), and a line feed as itself; so the HTML of lines that
are joined is the HTML of the lines, joined (`codeHtml_joinLines`).
-/

set_option autoImplicit false

namespace MarkdownPreview

open Text

namespace Variable

variable {cs : List Char}

/-- What is recognised on a line does not hang on the lines below. -/
theorem markedName_break (h : '\n' ∉ cs) (rest : List Char) :
    markedName true (cs ++ '\n' :: rest) = markedName true cs := by
  have hline : '\n' ∉ mark := by decide
  cases hmark : mark.isPrefixOf? cs with
  | none =>
    have hmiss := isPrefixOf?_eq_none_iff.mp hmark
    rw [← prefix_append_cons_iff hline cs, ← isPrefixOf?_eq_none_iff] at hmiss
    rw [markedName, markedName, hmiss, hmark]
  | some after =>
    obtain rfl := List.isPrefixOf?_eq_some_iff_append_eq.mp hmark
    have hlonger : mark.isPrefixOf? (mark ++ after ++ '\n' :: rest) = some (after ++ '\n' :: rest) :=
      List.isPrefixOf?_eq_some_iff_append_eq.mpr (List.append_assoc _ _ _).symm
    simp only [markedName, hmark, hlonger]
    cases after with
    | nil => cases hcut : cut? mark rest <;> simp [hcut]
    | cons c after =>
      simp only [List.cons_append, cut?_barrier (by decide) hline]
      -- A name that is not ended on its line has the line feed in it.
      cases cut? mark after <;> cases cut? mark rest <;> simp

/-- A variable covers no more than there is. -/
theorem more_lt_of_markedName {hit : Hit (List Char)} (h : markedName true cs = some hit) :
    hit.more < cs.length := by
  unfold markedName at h
  split at h
  · rename_i c rest hmark
    split at h
    · rename_i more after hcut
      dsimp only at h
      split at h
      · cases h
      · cases h
        rw [← List.isPrefixOf?_eq_some_iff_append_eq.mp hmark, append_of_cut?_eq_some hcut]
        simp only [mark, List.length_append, List.length_cons, List.length_nil]
        omega
    · cases h
  · cases h

theorem scan_markedName_break : ∀ (cs rest : List Char), '\n' ∉ cs →
    scan markedName (cs ++ '\n' :: rest) = scan markedName cs ++ .inl '\n' :: scan markedName rest
  | [], rest, _ => by
    have hmiss : markedName true ('\n' :: rest) = none := rfl
    rw [List.nil_append, steady_markedName.scan_miss hmiss]
    rfl
  | c :: cs, rest, h => by
    have hbreak := markedName_break h rest
    rw [List.cons_append] at hbreak ⊢
    have hcs : '\n' ∉ cs := fun hmem => h (List.mem_cons_of_mem c hmem)
    cases hhit : markedName true (c :: cs) with
    | none =>
      rw [hhit] at hbreak
      rw [steady_markedName.scan_miss hbreak, steady_markedName.scan_miss hhit,
        scan_markedName_break cs rest hcs]
      rfl
    | some hit =>
      rw [hhit] at hbreak
      -- A variable ends on its line, so what is skipped does not reach the line feed.
      have hmore : hit.more ≤ cs.length := Nat.le_of_lt_succ (more_lt_of_markedName hhit)
      have hdrop : '\n' ∉ cs.drop hit.more := fun hmem => hcs (List.mem_of_mem_drop hmem)
      rw [steady_markedName.scan_hit hbreak, steady_markedName.scan_hit hhit,
        List.drop_append_of_le_length hmore, scan_markedName_break (cs.drop hit.more) rest hdrop]
      rfl
termination_by cs => cs.length

end Variable

namespace Sample

open Html Variable

/-- The highlight of a name in code. -/
def nameChars (name : List Char) : List Char := (span (escapeCode (String.ofList name))).toList

/-- Code is written character by character and name by name. -/
theorem toList_codeHtml (cs : List Char) :
    (codeHtml cs).toList = (scan markedName cs).flatMap (Sum.elim codeChar nameChars) := by
  rw [← flatMap_ofScan]
  simp [codeHtml, highlight, escapeCode, pieces, nameChars, List.flatMap_map]

/-- **The HTML of lines that are joined is the HTML of the lines, joined.** -/
theorem codeHtml_joinLines {ls : List (List Char)} (h : ∀ l ∈ ls, '\n' ∉ l) :
    codeHtml (joinLines ls) = "\n".intercalate (ls.map codeHtml) := by
  have hbreak (l rest : List Char) (hl : '\n' ∉ l) : (codeHtml (l ++ '\n' :: rest)).toList
      = (codeHtml l).toList ++ '\n' :: (codeHtml rest).toList := by
    simp only [toList_codeHtml, scan_markedName_break l rest hl, List.flatMap_append,
      List.flatMap_cons]
    rfl
  apply String.toList_injective
  rw [joinLines_morphism (f := fun cs => (codeHtml cs).toList) rfl hbreak h, String.toList_intercalate,
    List.map_map]
  rfl

end Sample

end MarkdownPreview
