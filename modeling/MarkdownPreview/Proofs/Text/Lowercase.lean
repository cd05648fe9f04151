import MarkdownPreview.Proofs.Text.Caseless
import MarkdownPreview.Text.Lowercase

/-!
# What there is to know about lower case

Whoever maps a text to lower case needs three things of the mapping, and not its table: it takes the
characters one by one, a capital sigma apart, which becomes one of two letters; it changes nothing
that it has made; and characters without case come from themselves only. That is `IsLowering`, and
`lowercase` is one (`isLowering_lowercase`).

Of the table two facts are checked. Run against run, no small letter of one is a capital of another
(`isApart_caseRuns`). And each run by itself maps characters to characters, those of ASCII only if
they are letters (`isSound_caseRuns`).
-/

set_option autoImplicit false

namespace MarkdownPreview.Text

variable {lower : List Char → List Char} {marks cs ds : List Char} {c d m : Char} {r q : CaseRun}
  {n : Nat}

/-- What a text may become under a mapping that takes its characters one by one. A capital sigma may
become either of the small ones. -/
inductive Charwise (lower : List Char → List Char) : List Char → List Char → Prop where
  | nil : Charwise lower [] []
  | char {c : Char} {cs ds : List Char} (hc : c ≠ 'Σ') (h : Charwise lower cs ds) :
    Charwise lower (c :: cs) (lower [c] ++ ds)
  | sigma {s : Char} {cs ds : List Char} (hs : s = 'σ' ∨ s = 'ς') (h : Charwise lower cs ds) :
    Charwise lower ('Σ' :: cs) (s :: ds)

theorem Charwise.of_sigma (h : Charwise lower ['Σ'] ds) : ds = ['σ'] ∨ ds = ['ς'] := by
  cases h with
  | char hc _ => exact absurd rfl hc
  | sigma hs h =>
    cases h
    exact hs.imp (congrArg ([·])) (congrArg ([·]))

/-- What makes a mapping one to lower case, where `marks` are characters without case. -/
structure IsLowering (marks : List Char) (lower : List Char → List Char) : Prop where
  /-- Characters are mapped one by one. -/
  charwise : ∀ cs, Charwise lower cs (lower cs)
  /-- What it makes it leaves alone. -/
  steady : ∀ {cs c}, c ∈ lower cs → lower [c] = [c]
  /-- A mark comes from itself and from nothing else. -/
  own : ∀ {cs m}, m ∈ marks → (m ∈ lower cs ↔ m ∈ cs)

namespace IsLowering

variable (h : IsLowering marks lower)

include h

theorem mark (hm : m ∈ marks) : lower [m] = [m] :=
  h.steady ((h.own hm).mpr (List.mem_singleton_self m))

theorem ne_sigma (hc : lower [c] = [c]) : c ≠ 'Σ' := by
  rintro rfl
  have hsigma := (h.charwise ['Σ']).of_sigma
  rw [hc] at hsigma
  exact absurd hsigma (by decide)

/-- A text of characters that are left alone is left alone. -/
theorem eq_self (hcs : ∀ c ∈ cs, lower [c] = [c]) : lower cs = cs := by
  have hwise := h.charwise cs
  generalize lower cs = ds at hwise
  induction hwise with
  | nil => rfl
  | char hc _ ih =>
    rw [List.forall_mem_cons] at hcs
    rw [hcs.1, ih hcs.2, List.singleton_append]
  | sigma _ _ _ =>
    rw [List.forall_mem_cons] at hcs
    exact absurd rfl (h.ne_sigma hcs.1)

end IsLowering

/-! ## The table -/

/-- Whether no small letter of a run is a capital of another run, as far as that is seen from their
bounds: one lies before the other, or they take turns. -/
def CaseRun.isApart (r q : CaseRun) : Bool :=
  -- Every run is put to this against every other one, so it is made of what the kernel is fast at.
  Nat.blt (r.small + (r.last - r.first)) q.first || Nat.blt q.last r.small
    || (Nat.beq q.step 2 && (Nat.beq r.step 2 || Nat.beq r.first r.last)
      && Nat.beq ((r.small + q.first) % 2) 1)

theorem CaseRun.holds_small (h : r.isApart q = true) (hn : r.holds n = true) :
    q.holds (r.small + (n - r.first)) = false := by
  simp only [CaseRun.holds, CaseRun.isApart, Bool.and_eq_true, Bool.or_eq_true, beq_iff_eq,
    decide_eq_true_eq, Nat.blt_eq, Nat.beq_eq] at h hn
  rw [Bool.eq_false_iff]
  simp only [CaseRun.holds, Bool.and_eq_true, beq_iff_eq, decide_eq_true_eq, ne_eq]
  rintro ⟨⟨hfirst, hlast⟩, hstep⟩
  rcases h with (h | h) | ⟨⟨hq, hr⟩, hodd⟩
  · omega
  · omega
  · rw [hq] at hstep
    rcases hr with hr | hr
    · rw [hr] at hn
      omega
    · omega

/-- The capital I with a dot as a run of its own. -/
def dottedRun : CaseRun := ⟨0x0130, 0x0130, 1, 0x0069⟩

theorem isApart_caseRuns {r q : CaseRun} (hr : r ∈ caseRuns) (hq : q ∈ dottedRun :: caseRuns) :
    r.isApart q = true := by
  have hall : (caseRuns.all fun r => (dottedRun :: caseRuns).all r.isApart) = true := by
    decide +kernel
  exact List.all_eq_true.mp (List.all_eq_true.mp hall r hr) q hq

/-- Whether the part of a run in ASCII, if there is one, is one of letters, and its small letters
are characters. -/
def CaseRun.isSound (r : CaseRun) : Bool :=
  let last := r.small + (r.last - r.first)
  ((0x41 ≤ r.first && r.last ≤ 0x5A) || 0x80 ≤ r.first)
    && ((0x61 ≤ r.small && last ≤ 0x7A) || 0x80 ≤ r.small)
    && (last < 0xD800 || (0xDFFF < r.small && last < 0x110000))

theorem isSound_caseRuns : ∀ r ∈ caseRuns, r.isSound = true := by decide +kernel

theorem lowerChar_of_holds (h : ∀ q ∈ caseRuns, q.holds c.toNat = false) : lowerChar c = c := by
  have hnone : caseRuns.find? (·.holds c.toNat) = none := by
    simpa [List.find?_eq_none] using h
  rw [lowerChar, hnone]

/-- A character is in no run, or it becomes a small letter of the run that it is in. -/
theorem lowerChar_cases (c : Char) :
    (lowerChar c = c ∧ ∀ q ∈ caseRuns, q.holds c.toNat = false)
    ∨ ∃ r ∈ caseRuns, r.holds c.toNat = true
      ∧ (lowerChar c).toNat = r.small + (c.toNat - r.first) := by
  cases hfind : caseRuns.find? (·.holds c.toNat) with
  | none =>
    have hnone : ∀ q ∈ caseRuns, q.holds c.toNat = false := by
      simpa [List.find?_eq_none] using hfind
    exact .inl ⟨lowerChar_of_holds hnone, hnone⟩
  | some r =>
    have hmem := List.mem_of_find?_eq_some hfind
    have hr : r.holds c.toNat = true := by simpa using List.find?_some hfind
    refine .inr ⟨r, hmem, hr, ?_⟩
    have hsound := isSound_caseRuns r hmem
    have hvalid : (r.small + (c.toNat - r.first)).isValidChar := by
      simp only [CaseRun.isSound, CaseRun.holds, Bool.and_eq_true, Bool.or_eq_true,
        decide_eq_true_eq] at hsound hr
      unfold Nat.isValidChar
      omega
    rw [lowerChar, hfind]
    dsimp only
    rw [Char.ofNat, dif_pos hvalid]
    rfl

theorem not_holds_lowerChar (hq : q ∈ caseRuns) (c : Char) :
    q.holds (lowerChar c).toNat = false := by
  rcases lowerChar_cases c with ⟨hc, hnone⟩ | ⟨r, hr, hholds, hsmall⟩
  · rw [hc]
    exact hnone q hq
  · rw [hsmall]
    exact CaseRun.holds_small (isApart_caseRuns hr (List.mem_cons_of_mem _ hq)) hholds

theorem lowerChar_lowerChar (c : Char) : lowerChar (lowerChar c) = lowerChar c :=
  lowerChar_of_holds fun _ hq => not_holds_lowerChar hq c

theorem lowerChar_ne_sigma (c : Char) : lowerChar c ≠ 'Σ' := by
  intro h
  have hsame := lowerChar_lowerChar c
  rw [h] at hsame
  exact absurd hsame (by decide +kernel)

theorem lowerChar_ne_dotted (hc : c ≠ 'İ') : lowerChar c ≠ 'İ' := by
  rcases lowerChar_cases c with ⟨hsame, -⟩ | ⟨r, hr, hholds, hsmall⟩
  · rwa [hsame]
  · intro hdotted
    have hapart := CaseRun.holds_small (isApart_caseRuns hr List.mem_cons_self) hholds
    rw [← hsmall, hdotted] at hapart
    exact absurd hapart (by decide)

/-! ## Single characters -/

theorem lowercase_char (hs : c ≠ 'Σ') (hd : c ≠ 'İ') : lowercase [c] = [lowerChar c] := by
  rw [lowercase, lowercaseAfter, lowerAt, if_neg hs, if_neg hd]
  rfl

theorem lowercase_dotted : lowercase ['İ'] = ['i', '\u0307'] := by decide +kernel

/-- Only a capital sigma depends on what stands around it. -/
theorem lowerAt_eq (hc : c ≠ 'Σ') (before after : List Char) :
    lowerAt before c after = lowercase [c] := by
  rw [lowercase, lowercaseAfter, lowerAt, lowerAt, if_neg hc, if_neg hc]
  exact (List.append_nil _).symm

theorem lowerChar_of_isSign (hm : isSign m = true) : lowerChar m = m := by
  refine lowerChar_of_holds fun q hq => ?_
  have hsound := isSound_caseRuns q hq
  rw [Bool.eq_false_iff]
  simp only [isSign, CaseRun.isSound, CaseRun.holds, Bool.and_eq_true, Bool.or_eq_true,
    decide_eq_true_eq, ne_eq] at hm hsound ⊢
  omega

theorem eq_of_lowerChar_eq (hm : isSign m = true) (h : lowerChar c = m) : c = m := by
  rcases lowerChar_cases c with ⟨hsame, -⟩ | ⟨r, hr, hholds, hsmall⟩
  · exact hsame.symm.trans h
  · have hsound := isSound_caseRuns r hr
    rw [h] at hsmall
    simp only [isSign, CaseRun.isSound, CaseRun.holds, Bool.and_eq_true, Bool.or_eq_true,
      decide_eq_true_eq] at hm hsound hholds
    omega

/-! ## The mapping -/

theorem charwise_lowercaseAfter (before cs : List Char) :
    Charwise lowercase cs (lowercaseAfter before cs) := by
  induction cs generalizing before with
  | nil => exact .nil
  | cons c cs ih =>
    rw [lowercaseAfter]
    by_cases hc : c = 'Σ'
    · subst hc
      rw [lowerAt, if_pos rfl]
      refine .sigma ?_ (ih _)
      split
      · exact .inr rfl
      · exact .inl rfl
    · rw [lowerAt_eq hc]
      exact .char hc (ih _)

theorem Charwise.cases_of_mem (h : Charwise lower cs ds) (hd : d ∈ ds) :
    (∃ c ∈ cs, c ≠ 'Σ' ∧ d ∈ lower [c]) ∨ d = 'σ' ∨ d = 'ς' := by
  induction h with
  | nil => cases hd
  | @char c cs _ hc _ ih =>
    rcases List.mem_append.mp hd with hd | hd
    · exact .inl ⟨c, List.mem_cons_self, hc, hd⟩
    · exact (ih hd).imp_left fun ⟨b, hb, hrest⟩ => ⟨b, List.mem_cons_of_mem c hb, hrest⟩
  | sigma hs _ ih =>
    rcases List.mem_cons.mp hd with rfl | hd
    · exact .inr hs
    · exact (ih hd).imp_left fun ⟨b, hb, hrest⟩ => ⟨b, List.mem_cons_of_mem _ hb, hrest⟩

theorem Charwise.mem (h : Charwise lower cs ds) (hc : c ∈ cs) (hs : c ≠ 'Σ') (hd : d ∈ lower [c]) :
    d ∈ ds := by
  induction h with
  | nil => cases hc
  | char _ _ ih =>
    rcases List.mem_cons.mp hc with rfl | hc
    · exact List.mem_append_left _ hd
    · exact List.mem_append_right _ (ih hc)
  | sigma _ _ ih =>
    rcases List.mem_cons.mp hc with rfl | hc
    · exact absurd rfl hs
    · exact List.mem_cons_of_mem _ (ih hc)

/-- What stands in a lower case: a small letter of the table, one that a capital I with a dot or a
capital sigma became, or what has no capital. -/
theorem cases_of_mem_lowercase (h : d ∈ lowercase cs) :
    (∃ c ∈ cs, c ≠ 'İ' ∧ d = lowerChar c) ∨ d ∈ ['i', '\u0307', 'σ', 'ς'] := by
  rcases (charwise_lowercaseAfter [] cs).cases_of_mem h with ⟨c, hc, hs, hd⟩ | hd | hd
  · by_cases hdot : c = 'İ'
    · rw [hdot, lowercase_dotted] at hd
      exact .inr (List.mem_append_left ['σ', 'ς'] hd)
    · rw [lowercase_char hs hdot, List.mem_singleton] at hd
      exact .inl ⟨c, hc, hdot, hd⟩
  · exact .inr (by simp [hd])
  · exact .inr (by simp [hd])

/-- **`lowercase` maps to lower case.** -/
theorem isLowering_lowercase (hmarks : marks.all isSign = true) :
    IsLowering marks lowercase where
  charwise := charwise_lowercaseAfter []
  steady {cs c} h := by
    rcases cases_of_mem_lowercase h with ⟨b, -, hdot, rfl⟩ | hc
    · rw [lowercase_char (lowerChar_ne_sigma b) (lowerChar_ne_dotted hdot), lowerChar_lowerChar]
    · have hfixed : (['i', '\u0307', 'σ', 'ς'].all fun c => lowercase [c] = [c]) = true := by
        decide +kernel
      exact of_decide_eq_true (List.all_eq_true.mp hfixed c hc)
  own {cs m} hm := by
    have hsign : isSign m = true := List.all_eq_true.mp hmarks m hm
    constructor
    · intro h
      rcases cases_of_mem_lowercase h with ⟨b, hb, -, hsmall⟩ | hc
      · rwa [← eq_of_lowerChar_eq hsign hsmall.symm]
      · have hletters : (['i', '\u0307', 'σ', 'ς'].all fun c => !isSign c) = true := by decide
        have hletter := List.all_eq_true.mp hletters m hc
        rw [hsign] at hletter
        cases hletter
    · intro h
      have hs : m ≠ 'Σ' := by
        rintro rfl
        exact absurd hsign (by decide)
      have hd : m ≠ 'İ' := by
        rintro rfl
        exact absurd hsign (by decide)
      refine (charwise_lowercaseAfter [] cs).mem h hs ?_
      rw [lowercase_char hs hd, lowerChar_of_isSign hsign]
      exact List.mem_singleton_self m

end MarkdownPreview.Text
