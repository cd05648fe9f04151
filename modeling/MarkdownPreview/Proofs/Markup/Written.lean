import MarkdownPreview.Proofs.Rules.Edit
import MarkdownPreview.Proofs.Samples.Seen

/-!
# The HTML that rules write

All finished HTML that rules put into a document is made of text and of tags of the fixed choice
(`Written.isMarkup`): the tags of notes, prose and code with highlights, and code samples
(`Sample.reads_render`). What comes from the document stands in it as escaped text or as the escaped
value of an attribute.
-/

set_option autoImplicit false

namespace MarkdownPreview

open Html

namespace Html

theorem isMarkup_span {html : String} (h : '<' ∉ html.toList) : IsMarkup (Variable.span html) :=
  (Sample.reads_span h).isMarkup

theorem isMarkup_highlight {plain name : String → String} (hp : ∀ s, '<' ∉ (plain s).toList)
    (hn : ∀ s, '<' ∉ (name s).toList) (text : String) :
    IsMarkup (Variable.highlight plain name text) := by
  refine (IsMarkup.text (hp _)).append (.join ?_)
  intro s hs
  obtain ⟨⟨n, after⟩, -, rfl⟩ := List.mem_map.mp hs
  exact (isMarkup_span (hn _)).append (.text (hp _))

end Html

/-- **All finished HTML that rules write is made of text and of tags of the fixed choice.** -/
theorem Written.isMarkup {html : String} (h : Written html) : IsMarkup html := by
  cases h with
  | noteOpening kind =>
    have hname : "class" ∈ attributeNames := by decide
    refine .opening "span" [⟨"class", '\'', kind.name.toList⟩] false (by decide)
      (List.forall_mem_singleton.mpr ⟨hname, .inr rfl, ?_, ?_⟩) ?_ <;>
      cases kind <;> decide
  | noteClosing => exact .closing "span" (by decide) rfl
  | prose text =>
    exact isMarkup_highlight (fun s => (Prose.not_mem_escape s).1)
      (fun s => (Prose.not_mem_escape s).1) text
  | code text =>
    have hopen : IsMarkup "<code>" := .plainOpening "code" (by decide) rfl
    have hclose : IsMarkup "</code>" := .closing "code" (by decide) rfl
    have hbody := isMarkup_highlight bracket_not_mem_escape bracket_not_mem_escape text
    exact (hopen.append hbody).append hclose
  | raised name => exact isMarkup_span (Prose.not_mem_escape name).1
  | sample content info finalBreak => exact (Sample.reads_render content info finalBreak).isMarkup

end MarkdownPreview
