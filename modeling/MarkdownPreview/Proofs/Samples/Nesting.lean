import MarkdownPreview.Markdown.Block
import MarkdownPreview.Proofs.Samples.Seen

/-!
# The nesting of a code sample

The item of a line of commands is closed by the next line, and the last item and the list by what comes
after the trimmed code; the list itself is opened by the first line that stays. So the tags of a sample
are properly nested if a line stays (`sample_nested`). This is the case where the content ends its last
line, as that of a fence does (`endsLine_codeToken`): the empty line behind it is no label.
-/

set_option autoImplicit false

namespace MarkdownPreview

open Html Text

namespace Sample

/-! ## A line stays -/

/-- A content that is empty or ends in a line feed. -/
def EndsLine (content : String) : Prop := content = "" ∨ content.toList.getLast? = some '\n'

instance (content : String) : Decidable (EndsLine content) := inferInstanceAs (Decidable (_ ∨ _))

/-- A line that gives no label stays. -/
theorem mem_extract {labels : Labels} {ls : List (List Char)} {l : List Char} (h : l ∈ ls)
    (hl : Directive.ofLine? l = none) : l ∈ (labels.extract ls).2 := by
  fun_induction Labels.extract labels ls with
  | case1 => exact h
  | case2 labels line rest directive hdirective ih =>
    rcases List.mem_cons.mp h with rfl | h
    · rw [hl, ite_self] at hdirective
      cases hdirective
    · exact ih h
  | case3 labels line rest hdirective all kept heq ih =>
    rw [heq] at ih
    rcases List.mem_cons.mp h with rfl | h
    · exact List.mem_cons_self
    · exact List.mem_cons_of_mem line (ih h)

theorem nil_mem_extracted {content : String} (h : EndsLine content) : [] ∈ (extracted content).2 := by
  refine mem_extract (nil_mem_lines ?_) rfl
  rcases h with rfl | h
  · exact .inl rfl
  · exact .inr h

/-! ## Nesting -/

/-- The items of a list of commands: each line closes the item of the one before it. -/
def itemTags (line : List Char) (rest : List (List Char)) : List (Bracket String) :=
  .opening "li" :: ((codeSeen line).tags ++ (linesSeen false rest).flatMap Seen.tags
    ++ [.closing "li"])

theorem balanced_itemTags (line : List Char) (rest : List (List Char)) :
    Balanced (itemTags line rest) := by
  rw [Balanced, itemTags, waitingAfter_opening, List.append_assoc, waitingAfter_append,
    (balanced_codeSeen line).waitingAfter, Option.bind_some, waitingAfter_append,
    waitingAfter_linesSeen]
  rfl

theorem itemTags_subset (line : List Char) (rest : List (List Char)) :
    itemTags line rest ⊆ tagsOf ["li", "span"] := by
  have hcode : (codeSeen line).tags ⊆ tagsOf ["li", "span"] :=
    List.Subset.trans (tags_codeSeen_subset line) (by decide)
  refine List.cons_subset.mpr ⟨by decide, List.append_subset.mpr ⟨?_, by decide⟩⟩
  exact List.append_subset.mpr ⟨hcode, tags_linesSeen_subset rest⟩

/-- What a command adds to the end closes what the first line has opened. -/
theorem tags_insideSeen_commands (secondary? : Option String) (line : List Char)
    (rest : List (List Char)) : (insideSeen true secondary? (line :: rest)).tags
      = (labelSeen secondary?).tags ++ .opening "ul" :: (itemTags line rest ++ [.closing "ul"]) := by
  rw [tags_insideSeen, tags_bodySeen_commands]
  simp [itemTags, endSeen]

theorem balanced_insideSeen (isCommand : Bool) (secondary? : Option String)
    {kept : List (List Char)} (h : kept ≠ []) : Balanced (insideSeen isCommand secondary? kept).tags := by
  cases isCommand with
  | false =>
    rw [tags_insideSeen, tags_bodySeen_code]
    exact ((balanced_labelSeen secondary?).append (balanced_codeSeen _)).append .nil
  | true =>
    obtain ⟨line, rest, rfl⟩ := List.exists_cons_of_ne_nil h
    rw [tags_insideSeen_commands]
    exact (balanced_labelSeen secondary?).append ((balanced_itemTags line rest).enclose "ul")

theorem tags_sampleSeen (content info : String) (finalBreak : Bool) :
    (sampleSeen content info finalBreak).tags
      = (labelSeen (extracted content).1.primary?).tags ++ .opening "pre" :: (.opening "code"
        :: ((insideSeen (command? info).isSome (extracted content).1.secondary?
          (extracted content).2).tags ++ [.closing "code"]) ++ [.closing "pre"]) := by
  cases finalBreak <;> simp [sampleSeen]

/-- **A code sample is well-nested HTML**, if its content is empty or ends in a line feed. The `<` of
every tag that a reader of quoted values sees has been written as one, the tags are of six names and
properly nested, and commands are one list, in which all items are. -/
theorem sample_nested (content info : String) (finalBreak : Bool) (h : EndsLine content) :
    Balanced (read (render content info finalBreak)).tags
      ∧ (read (render content info finalBreak)).tags
        ⊆ tagsOf ["div", "pre", "code", "ul", "li", "span"]
      ∧ '<' ∉ (read (render content info finalBreak)).text
      ∧ ((command? info).isSome → ∃ before items after : List (Bracket String),
        (read (render content info finalBreak)).tags
            = before ++ .opening "ul" :: (items ++ .closing "ul" :: after)
          ∧ before ⊆ tagsOf ["div", "pre", "code"] ∧ items ⊆ tagsOf ["li", "span"]
          ∧ after ⊆ tagsOf ["div", "pre", "code"] ∧ Balanced items) := by
  have hreads := reads_render content info finalBreak
  have hkept : (extracted content).2 ≠ [] := List.ne_nil_of_mem (nil_mem_extracted h)
  have hbare := hreads.bracket_not_mem
  rw [hreads.read_eq]
  refine ⟨?balanced, ?names, hbare, ?list⟩
  case balanced =>
    rw [tags_sampleSeen]
    exact (balanced_labelSeen _).append
      (((balanced_insideSeen _ _ hkept).enclose "code").enclose "pre")
  case names =>
    rw [tags_sampleSeen]
    refine List.append_subset.mpr ⟨List.Subset.trans (tags_labelSeen_subset _) (by decide), ?_⟩
    refine List.cons_subset.mpr ⟨by decide, List.append_subset.mpr ⟨?_, by decide⟩⟩
    refine List.cons_subset.mpr ⟨by decide, List.append_subset.mpr ⟨?_, by decide⟩⟩
    exact List.Subset.trans (tags_insideSeen_subset _ _ _) (by decide)
  case list =>
    -- Before the list are the label above the sample, its opening tags and the label inside.
    intro hcommand
    obtain ⟨line, rest, hlines⟩ := List.exists_cons_of_ne_nil hkept
    have hlabel (label? : Option String) :
        (labelSeen label?).tags ⊆ tagsOf ["div", "pre", "code"] :=
      List.Subset.trans (tags_labelSeen_subset label?) (by decide)
    refine ⟨(labelSeen (extracted content).1.primary?).tags ++ .opening "pre" :: .opening "code"
        :: (labelSeen (extracted content).1.secondary?).tags, itemTags line rest,
      [.closing "code", .closing "pre"], ?_, ?_, itemTags_subset line rest, by decide,
      balanced_itemTags line rest⟩
    · rw [tags_sampleSeen, hcommand, hlines, tags_insideSeen_commands]
      simp
    · exact List.append_subset.mpr ⟨hlabel _, List.cons_subset.mpr ⟨by decide,
        List.cons_subset.mpr ⟨by decide, hlabel _⟩⟩⟩

theorem sample_nested_labelled :
    let html := render "[label a<b]\nx <^>y<^>\n\n[secondary_label \"]\n" "custom_prefix(>) z" false
    Balanced (read html).tags
      ∧ (read html).tags = [.opening "div", .closing "div", .opening "pre", .opening "code",
        .opening "div", .closing "div", .opening "ul", .opening "li", .opening "span",
        .closing "span", .closing "li", .opening "li", .closing "li", .closing "ul",
        .closing "code", .closing "pre"] := by
  intro html
  have hends : EndsLine "[label a<b]\nx <^>y<^>\n\n[secondary_label \"]\n" := .inr (by decide)
  obtain ⟨hbalanced, -, -, -⟩ := sample_nested _ "custom_prefix(>) z" false hends
  refine ⟨hbalanced, ?_⟩
  rw [(reads_render _ _ _).read_eq]
  decide +kernel

end Sample

namespace Markdown

/-- The content of a fence ends its last line. -/
theorem endsLine_codeToken (s : Setting) (extent? : Option Extent) (value : String)
    (lang? rest? : Option String) : Sample.EndsLine (codeToken s extent? value lang? rest?).content := by
  have hcontent : Sample.EndsLine (if value.isEmpty then "" else value ++ "\n") := by
    split
    · exact .inl rfl
    · exact .inr (by simp)
  cases hmarks : fenceMarks? (s.slice extent?) <;> simpa only [codeToken, hmarks] using hcontent

end Markdown

end MarkdownPreview
