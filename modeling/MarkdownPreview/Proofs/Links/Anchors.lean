import MarkdownPreview.Proofs.Lowering.Inventory

/-!
# Bare addresses within elements written by hand

Where only some destinations are accepted, a bare address is no link within an `<a>` element written
by hand. The tokens of the text of a block tell how many such elements are open at a place
(`openAnchors`); while the tokens are made, a line carries that number along (`Line.Sheltered`).
-/

set_option autoImplicit false

namespace MarkdownPreview.Markdown

/-- The number of `<a>` elements written by hand that are open after one more token. -/
def openAfter (n : Nat) (t : Token) : Nat :=
  if t.kind = .htmlInline then
    if opensAnchor t.content then n + 1
    else if closesAnchor t.content then n - 1
    else n
  else n

/-- The number of `<a>` elements written by hand that tokens leave open. -/
def openAnchors (ts : List Token) : Nat := ts.foldl openAfter 0

/-- Whether a token opens a link made from a bare address. -/
def IsBareLink (t : Token) : Prop := t.kind = .opening .link ∧ t.markup = "linkify"

/-- No link is made from a bare address within an `<a>` element written by hand, `n` of which are
open before the first token. -/
def Outside : (n : Nat) → List Token → Prop
  | _, [] => True
  | n, t :: ts => (IsBareLink t → n = 0) ∧ Outside (openAfter n t) ts

variable {p : Node → Bool} {ts us : List Token} {t : Token} {n : Nat}

theorem outside_append :
    Outside n (ts ++ us) ↔ Outside n ts ∧ Outside (ts.foldl openAfter n) us := by
  induction ts generalizing n with
  | nil => simp [Outside]
  | cons t ts ih => rw [List.cons_append, Outside, Outside, List.foldl_cons, ih, and_assoc]

/-- A link made from a bare address stands where no element is open. -/
theorem Outside.openAnchors_eq_zero {before after : List Token} {link : Token}
    (h : Outside 0 (before ++ link :: after)) (hl : IsBareLink link) : openAnchors before = 0 :=
  (outside_append.mp h).2.1 hl

/-! ## Tokens that play no part -/

/-- A token that is neither HTML nor a link made from a bare address. -/
def IsInert (t : Token) : Prop := t.kind ≠ .htmlInline ∧ ¬ IsBareLink t

theorem isInert_of_kind {k : Kind} (hk : t.kind = k)
    (h : k ≠ .htmlInline ∧ k ≠ .opening .link) : IsInert t := by
  subst hk
  exact ⟨h.1, fun hbare => h.2 hbare.1⟩

theorem isInert_of_isLoose (h : isLoose t = true) : IsInert t := by
  simp only [isLoose, Bool.or_eq_true, beq_iff_eq] at h
  rcases h with (h | h) | h <;> exact isInert_of_kind h (by decide)

theorem IsInert.openAfter_eq (h : IsInert t) (n : Nat) : openAfter n t = n := if_neg h.1

theorem IsInert.outside_cons (h : IsInert t) : Outside n (t :: ts) ↔ Outside n ts := by
  rw [Outside, h.openAfter_eq, and_iff_right fun hl => absurd hl h.2]

theorem outside_inert_append (h : ∀ t ∈ us, IsInert t) : Outside n (us ++ ts) ↔ Outside n ts := by
  induction us with
  | nil => rfl
  | cons u us ih =>
    rw [List.forall_mem_cons] at h
    rw [List.cons_append, h.1.outside_cons, ih h.2]

theorem foldl_openAfter_firm (ts : List Token) (n : Nat) :
    (firm ts).foldl openAfter n = ts.foldl openAfter n := by
  induction ts generalizing n with
  | nil => rfl
  | cons t ts ih =>
    cases hl : isLoose t with
    | true =>
      rw [firm_cons_loose hl, ih, List.foldl_cons, (isInert_of_isLoose hl).openAfter_eq]
    | false => rw [firm_cons_firm hl, List.foldl_cons, List.foldl_cons, ih]

theorem outside_firm : Outside n (firm ts) ↔ Outside n ts := by
  induction ts generalizing n with
  | nil => rfl
  | cons t ts ih =>
    cases hl : isLoose t with
    | true => rw [firm_cons_loose hl, ih, (isInert_of_isLoose hl).outside_cons]
    | false => rw [firm_cons_firm hl, Outside, Outside, ih]

theorem isInert_of_mem_raiseText {text : String} (h : t ∈ raiseText text) : IsInert t :=
  forall_mem_raiseText (fun _ => isInert_of_kind (k := .text) rfl (by decide))
    (isInert_of_kind (k := .opening .sup) rfl (by decide))
    (isInert_of_kind (k := .closing .sup) rfl (by decide)) text t h

theorem outside_raiseAll : Outside n (raiseAll ts) ↔ Outside n ts := by
  induction ts generalizing n with
  | nil => rfl
  | cons t ts ih =>
    rw [raiseAll, List.flatMap_cons, ← raiseAll]
    split
    · rename_i hraise
      rw [outside_inert_append fun u => isInert_of_mem_raiseText, ih,
        (isInert_of_isLoose (isLoose_of_kind hraise.1)).outside_cons]
    · rw [List.singleton_append, Outside, Outside, ih]

/-! ## Lines -/

/-- The number a line carries along is that of the elements its tokens leave open, and no link is
made from a bare address within one of them. -/
structure Line.Sheltered (l : Line) : Prop where
  anchors_eq : l.anchors = openAnchors l.newest.reverse
  outside : Outside 0 l.newest.reverse

/-- Text and line breaks do not count. -/
theorem Line.Sheltered.of_firm {l m : Line} (h : l.Sheltered) (ha : m.anchors = l.anchors)
    (hf : firm m.newest = firm l.newest) : m.Sheltered := by
  have hfr : firm m.newest.reverse = firm l.newest.reverse := by
    rw [firm, firm, List.filter_reverse, List.filter_reverse, ← firm, ← firm, hf]
  refine ⟨?_, ?_⟩
  · rw [ha, h.anchors_eq, openAnchors, openAnchors, ← foldl_openAfter_firm, ← hfr,
      foldl_openAfter_firm]
  · rw [← outside_firm, hfr, outside_firm]
    exact h.outside

theorem Line.Sheltered.add {l : Line} (h : l.Sheltered) (hk : t.kind ≠ .htmlInline)
    (hl : IsBareLink t → l.anchors = 0) : (l.add t).Sheltered := by
  refine ⟨?_, ?_⟩
  · rw [Line.add, List.reverse_cons, openAnchors, List.foldl_append, ← openAnchors,
      ← h.anchors_eq, List.foldl_cons, List.foldl_nil, openAfter, if_neg hk]
  · rw [Line.add, List.reverse_cons, outside_append]
    exact ⟨h.outside, fun hb => h.anchors_eq.symm.trans (hl hb), trivial⟩

theorem Line.Sheltered.pushHtml {l : Line} (h : l.Sheltered) (value : String) :
    (l.pushHtml value).Sheltered := by
  refine ⟨?_, ?_⟩
  · rw [Line.pushHtml, List.reverse_cons, openAnchors, List.foldl_append, ← openAnchors,
      ← h.anchors_eq]
    rfl
  · rw [Line.pushHtml, List.reverse_cons, outside_append]
    exact ⟨h.outside, nofun, trivial⟩

/-- What is added under strict acceptance keeps a line sheltered. -/
theorem Grows.sheltered {l m : Line} (hg : Grows .strict p l m) (h : l.Sheltered) :
    m.Sheltered := by
  induction hg with
  | refl => exact h
  | trans _ _ ihl ihm => exact ihm (ihl h)
  | push l text => exact h.of_firm rfl (firm_addText l.newest text)
  | hardBreak l => exact h.of_firm rfl (firm_pushHardBreak l)
  | code l content => exact h.add nofun nofun
  | html l value _ => exact h.pushHtml value
  | picture l url alt title? _ => exact h.add nofun nofun
  | span e tag markup htag _ ih =>
    have hne : ∀ x ∈ spanTags, x.1 ≠ .link := by decide
    exact (ih (h.add nofun fun hb => absurd (Kind.opening.inj hb.1) (hne _ htag))).add nofun nofun
  | @link l m url title? markup _ ha _ ih =>
    refine (ih (h.add nofun fun hb => ?_)).add nofun nofun
    have hin : l.insideAnchor = false := (ha hb.2).resolve_left nofun
    rw [Line.insideAnchor, Bool.or_eq_false_iff, decide_eq_false_iff_not] at hin
    exact Nat.eq_zero_of_not_pos hin.1

/-- **In the text of a block no bare address is a link within an `<a>` element written by hand.** -/
theorem IsRun.outside (h : IsRun .strict p ts) : Outside 0 ts := by
  obtain ⟨l, hg, hts⟩ := h
  have hl : Outside 0 l.newest.reverse := (hg.sheltered ⟨rfl, trivial⟩).outside
  rcases hts with rfl | rfl
  · exact hl
  · exact outside_raiseAll.mpr hl

end MarkdownPreview.Markdown
