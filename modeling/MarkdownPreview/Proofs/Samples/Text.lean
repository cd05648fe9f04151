import MarkdownPreview.Proofs.Samples.Seen

/-!
# The text of a code sample

A sample shows the same code whether it is a series of commands or not (`code_shown_alike`). Code that
is not is written in one go, lines and all; commands are written line by line, with items between the
lines and none for an empty last one, and only then trimmed. What is left without the tags are the
lines in both cases, since a text of code can be written line by line (`codeSeen_break`).
-/

set_option autoImplicit false

namespace MarkdownPreview.Sample

open Html Text Variable

/-! ## The text of the lines -/

theorem codeSeen_break (l rest : List Char) (h : '\n' ∉ l) :
    codeSeen (l ++ '\n' :: rest) = codeSeen l ++ .inl '\n' :: codeSeen rest := by
  rw [codeSeen, scan_markedName_break l rest h, List.flatMap_append, List.flatMap_cons]
  rfl

theorem map_text_linesSeen (isFirst : Bool) (ls : List (List Char)) :
    (linesSeen isFirst ls).map Seen.text = ls.map fun l => (codeSeen l).text := by
  induction ls generalizing isFirst with
  | nil => cases isFirst <;> rfl
  | cons line rest ih =>
    rw [linesSeen_cons, List.map_cons, List.map_cons, ih]
    congr 1
    split
    · rename_i h
      rw [h.2.1]
      rfl
    · rw [Seen.text_append, text_itemSeen, List.nil_append]

/-- The items of commands are no part of the text. -/
theorem text_bodySeen (isCommand : Bool) {kept : List (List Char)} (h : ∀ l ∈ kept, '\n' ∉ l) :
    (bodySeen isCommand kept).text = ['\n'].intercalate (kept.map fun l => (codeSeen l).text) := by
  cases isCommand with
  | true =>
    rw [bodySeen, if_pos rfl, Seen.text_intercalate, map_text_linesSeen]
  | false =>
    have hbreak (l rest : List Char) (hl : '\n' ∉ l) :
        (codeSeen (l ++ '\n' :: rest)).text = (codeSeen l).text ++ '\n' :: (codeSeen rest).text := by
      rw [codeSeen_break l rest hl, Seen.text_append, Seen.text_char]
    rw [bodySeen, if_neg Bool.false_ne_true]
    exact joinLines_morphism (f := fun cs => (codeSeen cs).text) rfl hbreak h

theorem extract_sublist (labels : Labels) (ls : List (List Char)) :
    List.Sublist (labels.extract ls).2 ls := by
  fun_induction Labels.extract labels ls with
  | case1 => exact .slnil
  | case2 labels line rest directive hdirective ih => exact ih.cons line
  | case3 labels line rest hdirective all kept heq ih =>
    rw [heq] at ih
    exact ih.cons_cons line

theorem not_mem_of_mem_extracted {content : String} {l : List Char}
    (h : l ∈ (extracted content).2) : '\n' ∉ l :=
  not_mem_of_mem_lines ((extract_sublist {} _).subset h)

/-! ## The text of the code element -/

/-- The text in the first element of a name, without the tags in it. -/
def textIn (name html : String) : List Char :=
  Seen.text (((read html).dropWhile (· ≠ .inr (.opening name))).takeWhile
    (· ≠ .inr (.closing name)))

theorem textIn_eq {name html : String} {before inside after : Seen}
    (h : read html = before ++ .inr (.opening name) :: (inside ++ .inr (.closing name) :: after))
    (hbefore : .opening name ∉ before.tags) (hinside : .closing name ∉ inside.tags) :
    textIn name html = inside.text := by
  have hskip : ∀ item ∈ before, decide (item ≠ .inr (.opening name)) = true := by
    intro item hitem
    rw [decide_eq_true_iff]
    rintro rfl
    exact hbefore ((Seen.mem_tags _).mpr hitem)
  have hkeep : ∀ item ∈ inside, decide (item ≠ .inr (.closing name)) = true := by
    intro item hitem
    rw [decide_eq_true_iff]
    rintro rfl
    exact hinside ((Seen.mem_tags _).mpr hitem)
  rw [textIn, h, List.dropWhile_append_of_pos hskip, List.dropWhile_cons_of_neg (by simp),
    List.takeWhile_cons_of_pos (by simp), List.takeWhile_append_of_pos hkeep,
    List.takeWhile_cons_of_neg (by simp), List.append_nil, Seen.text_tag]

/-- The label inside the code element, and the lines that are shown below it. -/
def shownCode (content : String) : List Char :=
  (labelSeen (extracted content).1.secondary?).text
    ++ ['\n'].intercalate ((extracted content).2.map fun l => (codeSeen l).text)

/-- Whatever a sample is, the same code is shown in it. -/
theorem trimEnd_textIn_code (content info : String) (finalBreak : Bool) :
    trimEnd (textIn "code" (render content info finalBreak)) = trimEnd (shownCode content) := by
  have hread : read (render content info finalBreak)
      = (labelSeen (extracted content).1.primary? ++ [.inr (.opening "pre")])
        ++ .inr (.opening "code")
        :: (insideSeen (command? info).isSome (extracted content).1.secondary? (extracted content).2
          ++ .inr (.closing "code")
          :: .inr (.closing "pre") :: (if finalBreak then [.inl '\n'] else [])) := by
    rw [(reads_render content info finalBreak).read_eq, sampleSeen]
    simp
  have hbefore : .opening "code" ∉
      Seen.tags (labelSeen (extracted content).1.primary? ++ [.inr (.opening "pre")]) := by
    intro hmem
    rw [Seen.tags_append, List.mem_append] at hmem
    rcases hmem with hmem | hmem
    · exact absurd (tags_labelSeen_subset _ hmem) (by decide)
    · exact absurd hmem (by decide)
  have hinside : .closing "code" ∉ (insideSeen (command? info).isSome
      (extracted content).1.secondary? (extracted content).2).tags := fun hmem =>
    absurd (tags_insideSeen_subset _ _ _ hmem) (by decide)
  have hbody : trimEnd (bodySeen (command? info).isSome (extracted content).2).trimEnd.text
      = trimEnd (['\n'].intercalate ((extracted content).2.map fun l => (codeSeen l).text)) := by
    rw [Seen.trimEnd_text_trimEnd, text_bodySeen _ fun l hl => not_mem_of_mem_extracted hl]
  have hblank : isBlank '\n' = true := rfl
  -- The line feed that ends the code is a blank, so it is trimmed with what the code has at its end.
  rw [textIn_eq hread hbefore hinside, insideSeen, Seen.text_append, Seen.text_append, Seen.text_char,
    text_endSeen, trimEnd, dropEndWhile_concat, if_pos hblank]
  exact dropEndWhile_append_congr _ hbody

/-- **A series of commands shows the same code as any other sample.** Whatever follows a fence's marks,
the text of the code element is the same up to blanks at its end, since the HTML of lines that are
joined is the HTML of the lines, joined. -/
theorem code_shown_alike (content info info' : String) (finalBreak finalBreak' : Bool) :
    trimEnd (textIn "code" (render content info finalBreak))
        = trimEnd (textIn "code" (render content info' finalBreak'))
      ∧ ∀ ls : List String, (∀ l ∈ ls, '\n' ∉ l.toList) →
        highlight escapeCode escapeCode ("\n".intercalate ls)
          = "\n".intercalate (ls.map (highlight escapeCode escapeCode)) := by
  refine ⟨?_, fun ls hls => ?_⟩
  · rw [trimEnd_textIn_code, trimEnd_textIn_code]
  · have hlines : ∀ l ∈ ls.map String.toList, '\n' ∉ l := by
      rw [List.forall_mem_map]
      exact hls
    have hcode (l : String) : codeHtml l.toList = highlight escapeCode escapeCode l := by
      rw [codeHtml, String.ofList_toList]
    have hjoin : joinLines (ls.map String.toList) = ("\n".intercalate ls).toList := by
      rw [String.toList_intercalate]
      rfl
    have h := codeHtml_joinLines hlines
    rwa [hjoin, hcode, List.map_map, Function.comp_def, funext hcode] at h

theorem code_shown_alike_commands :
    let content := "[label a]\r\nx <^>y<^>\r\tz\n\n"
    trimEnd (textIn "code" (render content "command" true))
        = trimEnd (textIn "code" (render content "bash" false))
      ∧ trimEnd (textIn "code" (render content "bash" false)) = "x y\n    z".toList
      ∧ highlight escapeCode escapeCode "x <^>y<^>\n\tz"
        = "\n".intercalate (["x <^>y<^>", "\tz"].map (highlight escapeCode escapeCode)) := by
  intro content
  obtain ⟨htext, hlines⟩ := code_shown_alike content "command" "bash" true false
  exact ⟨htext, by decide +kernel, hlines ["x <^>y<^>", "\tz"] (by decide)⟩

end MarkdownPreview.Sample
