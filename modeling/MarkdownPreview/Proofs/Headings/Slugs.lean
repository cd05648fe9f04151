import MarkdownPreview.Proofs.Text.Lowercase
import MarkdownPreview.Proofs.Text.Scan
import MarkdownPreview.Slug.Basic

/-!
# The form of a slug

A slug is made in steps, and a step writes what a later one looks at: codes bring dashes, dropped
punctuation leaves spaces and dashes side by side, spaces become dashes. What comes out has a form
that says nothing of the steps (`IsSlug`), and on a text of that form in small letters each of them
does nothing. So a slug is the slug of itself (`ofHeading_canonical`).

Of lower case no more is used than `IsLowering` says: it takes characters one by one, leaves alone
what it makes, and neither makes nor changes the dash and the punctuation that is dropped. With any
such mapping slugs would have that form and stay as they are (`isSlug_lowered`, `slug_lowered`).
-/

set_option autoImplicit false

namespace MarkdownPreview.Slug

open Text

variable {lower : List Char → List Char} {cs : List Char} {c d : Char}

/-- The characters that a slug has codes for. -/
def coded : List Char := ['&', '"', '\'']

/-- The form of a slug. -/
structure IsSlug (cs : List Char) : Prop where
  noSpace : ' ' ∉ cs
  noCoded : ∀ c ∈ coded, c ∉ cs
  noDropped : ∀ c ∈ dropped, c ∉ cs
  singleDashes : ¬['-', '-'] <:+: cs

/-! ## Without punctuation -/

theorem codeOf_eq_self (hc : c ∉ coded) : codeOf c = [c] := by
  simp only [coded, List.mem_cons, List.not_mem_nil, or_false, not_or] at hc
  rw [codeOf, if_neg hc.1, if_neg hc.2.1, if_neg hc.2.2]

theorem not_mem_codeOf (hc : c ∈ coded) (d : Char) : c ∉ codeOf d := by
  by_cases hd : d ∈ coded
  · have hcodes : (coded.all fun c => coded.all fun d => c ∉ codeOf d) = true := by decide
    exact of_decide_eq_true (List.all_eq_true.mp (List.all_eq_true.mp hcodes c hc) d hd)
  · rw [codeOf_eq_self hd, List.mem_singleton]
    rintro rfl
    exact hd hc

theorem ne_of_mem_punctuation (hc : c ∈ coded ++ dropped) : c ≠ ' ' ∧ c ≠ '-' := by
  have hall : ((coded ++ dropped).all fun c => c ≠ ' ' ∧ c ≠ '-') = true := by decide
  exact of_decide_eq_true (List.all_eq_true.mp hall c hc)

theorem not_mem_bare (hc : c ∈ coded ++ dropped) (cs : List Char) : c ∉ bare cs := by
  obtain ⟨hspace, hdash⟩ := ne_of_mem_punctuation hc
  have hjoint : c ∉ [' ', '-', ' '] := by simp [hspace, hdash]
  rw [bare, mem_replace_exactly_iff (List.cons_ne_nil _ _) hjoint hdash.symm, List.mem_filter,
    List.mem_flatMap]
  rintro ⟨⟨d, -, hd⟩, hkept⟩
  rcases List.mem_append.mp hc with hc | hc
  · exact not_mem_codeOf hc d hd
  · simp [hc] at hkept

theorem bare_eq_self (h : IsSlug cs) : bare cs = cs := by
  have hcodes : cs.flatMap codeOf = cs := by
    rw [List.flatMap_congr fun c hc => codeOf_eq_self fun hcoded => h.noCoded c hcoded hc,
      List.flatMap_singleton']
  have hkept : cs.filter (fun c => !dropped.contains c) = cs := by
    rw [List.filter_eq_self]
    intro c hc
    have hdropped : c ∉ dropped := fun hdropped => h.noDropped c hdropped hc
    simpa using hdropped
  have hjoint : ¬[' ', '-', ' '] <:+: cs := fun hin => h.noSpace (hin.subset List.mem_cons_self)
  rw [bare, hcodes, hkept, replace_exactly_eq_self hjoint]

/-! ## Single dashes -/

theorem mem_of_mem_collapseDashes (h : c ∈ collapseDashes cs) : c ∈ cs := by
  fun_induction collapseDashes cs with
  | case1 cs ih => exact List.mem_cons_of_mem _ (ih h)
  | case2 d cs _ ih =>
    rcases List.mem_cons.mp h with rfl | h
    · exact List.mem_cons_self
    · exact List.mem_cons_of_mem d (ih h)
  | case3 => exact h

theorem head?_collapseDashes (cs : List Char) : (collapseDashes cs).head? = cs.head? := by
  fun_induction collapseDashes cs with
  | case1 cs ih => exact ih
  | case2 => rfl
  | case3 => rfl

theorem not_infix_collapseDashes (cs : List Char) : ¬['-', '-'] <:+: collapseDashes cs := by
  fun_induction collapseDashes cs with
  | case1 cs ih => exact ih
  | case2 c cs hpair ih =>
    rw [List.infix_cons_iff, not_or]
    refine ⟨fun hprefix => ?_, ih⟩
    obtain ⟨rfl, rest, hrest⟩ := List.cons_prefix_cons.mp hprefix
    have hhead : cs.head? = some '-' := by
      rw [← head?_collapseDashes, ← hrest]
      rfl
    obtain ⟨rest, rfl⟩ := List.head?_eq_some_iff.mp hhead
    exact hpair rest rfl rfl
  | case3 => exact fun h => absurd (List.infix_nil.mp h) (List.cons_ne_nil _ _)

theorem collapseDashes_eq_self (h : ¬['-', '-'] <:+: cs) : collapseDashes cs = cs := by
  fun_induction collapseDashes cs with
  | case1 cs _ => exact absurd (List.prefix_append ['-', '-'] cs).isInfix h
  | case2 c cs _ ih =>
    rw [List.infix_cons_iff, not_or] at h
    rw [ih h.2]
  | case3 => rfl

theorem mem_dashed (h : c ∈ dashed cs) : c ≠ ' ' ∧ (c ∈ cs ∨ c = '-') := by
  obtain ⟨d, hd, rfl⟩ := List.mem_map.mp (mem_of_mem_collapseDashes h)
  split
  · exact ⟨by decide, .inr rfl⟩
  · rename_i hspace
    exact ⟨hspace, .inl hd⟩

theorem isSlug_dashed (h : ∀ c ∈ coded ++ dropped, c ∉ cs) : IsSlug (dashed cs) := by
  have hclear : ∀ c ∈ coded ++ dropped, c ∉ dashed cs := by
    intro c hc hdashed
    exact (mem_dashed hdashed).2.elim (h c hc) (ne_of_mem_punctuation hc).2
  exact {
    noSpace := fun hspace => (mem_dashed hspace).1 rfl
    noCoded := fun c hc => hclear c (List.mem_append_left _ hc)
    noDropped := fun c hc => hclear c (List.mem_append_right _ hc)
    singleDashes := not_infix_collapseDashes _ }

theorem dashed_eq_self (h : IsSlug cs) : dashed cs = cs := by
  have hspaces : cs.map (fun c => if c = ' ' then '-' else c) = cs := by
    refine (List.map_congr_left fun c hc => ?_).trans (List.map_id cs)
    refine if_neg ?_
    rintro rfl
    exact h.noSpace hc
  rw [dashed, hspaces, collapseDashes_eq_self h.singleDashes]

/-! ## The slug of a heading -/

/-- The punctuation that is the same in lower case. -/
def marks : List Char := '-' :: (coded ++ dropped)

theorem isSlug_lowered (h : IsLowering marks lower) (cs : List Char) :
    IsSlug (dashed (lower (bare cs))) := by
  refine isSlug_dashed fun c hc => ?_
  rw [h.own (List.mem_cons_of_mem _ hc)]
  exact not_mem_bare hc cs

/-- The characters of a slug are what lower case left, and dashes. -/
theorem lower_dashed (h : IsLowering marks lower) (cs : List Char) :
    lower (dashed (lower cs)) = dashed (lower cs) := by
  refine h.eq_self fun c hc => ?_
  rcases (mem_dashed hc).2 with hc | rfl
  · exact h.steady hc
  · exact h.mark List.mem_cons_self

theorem slug_lowered (h : IsLowering marks lower) (cs : List Char) :
    dashed (lower (bare (dashed (lower (bare cs))))) = dashed (lower (bare cs)) := by
  have hslug := isSlug_lowered h cs
  rw [bare_eq_self hslug, lower_dashed h, dashed_eq_self hslug]

/-- **A slug is in the form of one, and it is its own slug.** -/
theorem ofHeading_canonical (title : String) :
    IsSlug (ofHeading title).toList ∧ ofHeading (ofHeading title) = ofHeading title := by
  have hlower : IsLowering marks lowercase := isLowering_lowercase (by decide)
  constructor
  · rw [ofHeading, String.toList_ofList]
    exact isSlug_lowered hlower title.toList
  · rw [ofHeading, ofHeading, String.toList_ofList]
    exact congrArg String.ofList (slug_lowered hlower title.toList)

end MarkdownPreview.Slug
