import Mathlib.Data.List.Chain
import MarkdownPreview.Proofs.Markup.Escape
import MarkdownPreview.Proofs.Text.Pieces
import MarkdownPreview.Proofs.Variables.Raised

/-!
# A text and its variables

What a variable is can be said without searching for one: a name between two marks (`StartsPair`).
A text is then put together of its variables and what lies between them in just one way such that
each variable comes first in what is left of the text, and its name is as short as can be
(`IsDecomposition`). `highlight` writes this decomposition, and escapers that leave no `<` behind
write it without any mark (`exists_decomposition`).

Two marks do not overlap (`mark_starts_append`). So a variable that starts before another one and
goes on behind it would also be one if the text ended where the other one does
(`StartsPair.shorten`), and it makes no difference that a decomposition only looks that far.

Other pairs of marks can be selected than those of the decomposition, but not more of them
(`Selects.length_le`): the first variable starts no later than any other pair and ends no later.
-/

set_option autoImplicit false

namespace MarkdownPreview

open Text

namespace Variable

variable {cs ds front back name after : List Char} {rest : List (List Char × List Char)} {p : Cut}

/-! ## Names and pairs -/

/-- What is read as the name of a variable: some text on one line with no mark in it, except that it
may start with one. -/
structure IsName (name : List Char) : Prop where
  ne_nil : name ≠ []
  oneLine : '\n' ∉ name
  unmarked : ¬mark <:+: name.tail

/-- A name with its marks. -/
def marked (name : List Char) : List Char := mark ++ (name ++ mark)

/-- A text starts with a pair of marks with something between them on one line. -/
def StartsPair (cs : List Char) : Prop :=
  ∃ name rest, name ≠ [] ∧ '\n' ∉ name ∧ cs = marked name ++ rest

/-- The first pair of a text is at place `i`. -/
def IsFirstPair (cs : List Char) (i : Nat) : Prop :=
  StartsPair (cs.drop i) ∧ ∀ j < i, ¬StartsPair (cs.drop j)

theorem IsName.startsPair (h : IsName name) (rest : List Char) : StartsPair (marked name ++ rest) :=
  ⟨name, rest, h.ne_nil, h.oneLine, rfl⟩

theorem StartsPair.append (h : StartsPair cs) (rest : List Char) : StartsPair (cs ++ rest) := by
  obtain ⟨name, more, hne, hline, rfl⟩ := h
  exact ⟨name, more ++ rest, hne, hline, List.append_assoc _ _ _⟩

theorem written_eq (first name after : List Char) (rest : List (List Char × List Char)) :
    written ⟨first, (name, after) :: rest⟩ = first ++ (marked name ++ written ⟨after, rest⟩) := by
  simp [written, marked]

/-- A mark that starts before another one ends before it. -/
theorem mark_starts_append (hne : front ≠ []) (h : mark <+: front ++ (mark ++ back)) :
    mark <+: front := by
  match front, hne with
  | [c], _ => simp [mark, List.cons_prefix_cons] at h
  | [c, d], _ => simp [mark, List.cons_prefix_cons] at h
  | c :: d :: e :: front, _ =>
    simp only [mark, List.cons_append, List.cons_prefix_cons] at h ⊢
    exact ⟨h.1, h.2.1, h.2.2.1, List.nil_prefix⟩

/-! ## What is recognised -/

theorem markedName_eq_some_iff {hit : Hit (List Char)} : markedName true cs = some hit ↔
    ∃ name rest, IsName name ∧ cs = marked name ++ rest ∧ hit = ⟨name, name.length + 5⟩ := by
  constructor
  · intro h
    unfold markedName at h
    split at h
    · rename_i c rest hmark
      split at h
      · rename_i more after hcut
        dsimp only at h
        split at h
        · cases h
        · rename_i hline
          have hcs : mark ++ c :: rest = cs := List.isPrefixOf?_eq_some_iff_append_eq.mp hmark
          have hrest : rest = more ++ (mark ++ after) := append_of_cut?_eq_some hcut
          refine ⟨c :: more, after, ⟨List.cons_ne_nil c more, ?_, ?_⟩, ?_, ?_⟩
          · simpa using hline
          · exact not_infix_of_cut?_eq_some (by decide) hcut
          · rw [← hcs, hrest]
            simp [marked]
          · exact (Option.some.inj h).symm
      · cases h
    · cases h
  · rintro ⟨name, rest, hname, rfl, rfl⟩
    obtain ⟨hne, hline, hmarks⟩ := hname
    cases name with
    | nil => exact absurd rfl hne
    | cons c more =>
      have hcut : cut? mark (more ++ (mark ++ rest)) = some (more, rest) := by
        apply cut?_first (by decide)
        intro s hs hne h
        exact hmarks ((mark_starts_append hne h).isInfix.trans hs.isInfix)
      have hmark : mark.isPrefixOf? (marked (c :: more) ++ rest)
          = some (c :: (more ++ (mark ++ rest))) := by
        rw [List.isPrefixOf?_eq_some_iff_append_eq]
        simp [marked]
      simp only [markedName, hmark, hcut]
      simpa using hline

/-- A pair is recognised, though perhaps with an earlier end. -/
theorem markedName_eq_none_iff : markedName true cs = none ↔ ¬StartsPair cs := by
  constructor
  · rintro h ⟨name, rest, hne, hline, rfl⟩
    cases name with
    | nil => exact hne rfl
    | cons c more =>
      have hfirst : ∃ before after, cut? mark (more ++ (mark ++ rest)) = some (before, after)
          ∧ before <+: more := exists_cut?_eq_some (by decide) more rest
      obtain ⟨before, after, hcut, hbefore⟩ := hfirst
      have hmark : mark.isPrefixOf? (marked (c :: more) ++ rest)
          = some (c :: (more ++ (mark ++ rest))) := by
        rw [List.isPrefixOf?_eq_some_iff_append_eq]
        simp [marked]
      have hline : '\n' ∉ c :: before := by
        intro hmem
        exact hline ((List.cons_prefix_cons.mpr ⟨rfl, hbefore⟩).subset hmem)
      simp only [markedName, hmark, hcut] at h
      simp [hline] at h
  · intro h
    rw [Option.eq_none_iff_forall_ne_some]
    intro hit hhit
    obtain ⟨name, rest, hname, rfl, -⟩ := markedName_eq_some_iff.mp hhit
    exact h (hname.startsPair rest)

theorem lasts_markedName : Lasts markedName := by
  intro cs hit rest h
  rw [markedName_eq_some_iff] at h ⊢
  obtain ⟨name, more, hname, rfl, rfl⟩ := h
  exact ⟨name, more ++ rest, hname, List.append_assoc _ _ _, rfl⟩

theorem spells_markedName : Spells marked markedName := by
  intro c cs hit h
  obtain ⟨name, rest, -, hcs, rfl⟩ := markedName_eq_some_iff.mp h
  have hlen : (marked name).length = name.length + 5 + 1 := by simp [marked, mark]
  rw [← List.take_succ_cons, hcs, ← hlen, List.take_left]

/-- What is recognised, and what comes behind it. -/
theorem exists_name {c : Char} {hit : Hit (List Char)} (h : markedName true (c :: cs) = some hit) :
    ∃ name, IsName name ∧ hit = ⟨name, name.length + 5⟩
      ∧ c :: cs = marked name ++ cs.drop hit.more := by
  have hspelled := spells_markedName h
  obtain ⟨name, rest, hname, -, rfl⟩ := markedName_eq_some_iff.mp h
  refine ⟨name, hname, rfl, ?_⟩
  rw [← hspelled, List.cons_append, List.take_append_drop]

/-- A text has a variable if a pair starts somewhere in it. -/
theorem occurs_eq_false_iff : occurs (String.ofList cs) = false ↔ Misses markedName cs [] := by
  rw [occurs, String.toList_ofList, Text.occurs_eq_false_iff steady_markedName]

/-! ## The decomposition -/

/-- A text `first`, and names each with the text after it, such that no variable is in a text between
names, and each name with its marks is the first variable in what comes before its end. -/
def Parted : (first : List Char) → (rest : List (List Char × List Char)) → Prop
  | first, [] => occurs (String.ofList first) = false
  | first, (name, after) :: rest =>
    occurs (String.ofList first) = false ∧ IsName name
      ∧ IsFirstPair (first ++ marked name) first.length ∧ Parted after rest

/-- A text is put together of the pieces `p`, and they are its variables and what lies between. -/
structure IsDecomposition (cs : List Char) (p : Cut) : Prop where
  written_eq : written p = cs
  parted : Parted p.first p.rest

theorem isFirstPair_append : IsFirstPair (front ++ back) front.length
    ↔ StartsPair back ∧ ∀ s, s <:+ front → s ≠ [] → ¬StartsPair (s ++ back) := by
  rw [IsFirstPair, List.drop_left]
  refine and_congr_right fun _ => ⟨fun h s hs hne => ?_, fun h j hj => ?_⟩
  · obtain ⟨before, rfl⟩ := hs
    have hlt : before.length < (before ++ s).length := by
      rw [List.length_append]
      have := List.length_pos_of_ne_nil hne
      omega
    have hdrop := h before.length hlt
    rwa [List.append_assoc, List.drop_left] at hdrop
  · rw [List.drop_append_of_le_length hj.le]
    apply h _ (List.drop_suffix j front)
    simpa using hj

theorem parted_of_cuts (h : Cuts markedName cs p) : Parted p.first p.rest := by
  induction h with
  | last hmiss => exact occurs_eq_false_iff.mpr hmiss
  | @next front xs x hit p hmiss hhit hp ih =>
    refine ⟨occurs_eq_false_iff.mpr (hmiss.shorten lasts_markedName), ?_⟩
    obtain ⟨name, hname, rfl, hxs⟩ := exists_name hhit
    refine ⟨hname, isFirstPair_append.mpr ⟨?_, ?_⟩, ih⟩
    · simpa using hname.startsPair []
    · intro s hs hne hstarts
      have hnone := hmiss s hs hne
      rw [hxs, ← List.append_assoc, markedName_eq_none_iff] at hnone
      exact hnone (hstarts.append _)

/-- A pair that starts before another one does so without what follows that one. -/
theorem StartsPair.shorten (hname : IsName name) (hne : front ≠ [])
    (h : StartsPair (front ++ (marked name ++ back))) : StartsPair (front ++ marked name) := by
  obtain ⟨other, rest, hother, hline, heq⟩ := h
  have hmark : mark <+: front ++ (mark ++ (name ++ mark ++ back)) := by
    refine ⟨other ++ mark ++ rest, ?_⟩
    simpa [marked] using heq.symm
  obtain ⟨s, rfl⟩ := mark_starts_append hne hmark
  -- What follows the opening mark: the text before the other pair, or all that is on its line.
  have htail : s ++ (marked name ++ back) = other ++ (mark ++ rest) := by
    simpa [marked] using heq
  by_cases hs : '\n' ∈ s
  · obtain ⟨us, vs, rfl⟩ := List.append_of_mem hs
    have hstarts : other ++ mark <+: us ++ '\n' :: (vs ++ (marked name ++ back)) := by
      refine ⟨rest, ?_⟩
      simpa using htail.symm
    have hbreak : '\n' ∉ other ++ mark := by
      simpa [mark] using hline
    obtain ⟨more, hmore⟩ := (prefix_append_cons_iff hbreak us).mp hstarts
    refine ⟨other, more ++ '\n' :: vs ++ marked name, hother, hline, ?_⟩
    rw [← hmore]
    simp [marked]
  · refine ⟨s ++ (mark ++ name), [], ?_, ?_, ?_⟩
    · simp [mark]
    · have hname := hname.oneLine
      simp [mark, hs, hname]
    · simp [marked]

theorem Parted.cuts : ∀ {rest : List (List Char × List Char)} {first : List Char},
    Parted first rest → Cuts markedName (written ⟨first, rest⟩) ⟨first, rest⟩
  | [], first, h => by
    rw [written_nil]
    exact .last (occurs_eq_false_iff.mp h)
  | (name, after) :: rest, first, ⟨_, hname, hfirst, h⟩ => by
    obtain ⟨-, hbefore⟩ := isFirstPair_append.mp hfirst
    have hhit : markedName true (marked name ++ written ⟨after, rest⟩)
        = some ⟨name, name.length + 5⟩ :=
      markedName_eq_some_iff.mpr ⟨name, _, hname, rfl, rfl⟩
    have hmiss : Misses markedName first (marked name ++ written ⟨after, rest⟩) := by
      intro s hs hne
      rw [markedName_eq_none_iff]
      exact fun hstarts => hbefore s hs hne (hstarts.shorten hname hne)
    have hdrop : ('^' :: '>' :: (name ++ mark ++ written ⟨after, rest⟩)).drop (name.length + 5)
        = written ⟨after, rest⟩ := by simp [mark]
    have hsplit : marked name ++ written ⟨after, rest⟩
        = '<' :: '^' :: '>' :: (name ++ mark ++ written ⟨after, rest⟩) := by simp [marked, mark]
    rw [written_eq]
    rw [hsplit] at hhit hmiss ⊢
    refine Cuts.next (p := ⟨after, rest⟩) hmiss hhit ?_
    rw [hdrop]
    exact h.cuts

/-- The pieces that a scan finds are the decomposition. -/
theorem isDecomposition_iff : IsDecomposition cs p ↔ p = pieces markedName cs := by
  rw [← steady_markedName.cuts_iff]
  constructor
  · rintro ⟨rfl, hparted⟩
    exact hparted.cuts
  · intro h
    refine ⟨?_, parted_of_cuts h⟩
    have hspelled := h.spelled spells_markedName
    simpa [written, marked] using hspelled

/-! ## As many as can be -/

/-- The names of some pairs of a text, one pair after the other. Where one is left out, its marks are
text like any other. -/
inductive Selects : List Char → List (List Char) → Prop
  | none (cs : List Char) : Selects cs []
  | next {name : List Char} {names : List (List Char)} {rest : List Char} (before : List Char)
      (hname : IsName name) (h : Selects rest names) :
      Selects (before ++ (marked name ++ rest)) (name :: names)

theorem Selects.prepend (before : List Char) {names : List (List Char)} (h : Selects cs names) :
    Selects (before ++ cs) names := by
  cases h with
  | none => exact .none _
  | next front hname h =>
    rw [← List.append_assoc]
    exact .next (before ++ front) hname h

theorem Selects.append {names more : List (List Char)} (h : Selects cs names)
    (hds : Selects ds more) : Selects (cs ++ ds) (names ++ more) := by
  induction h with
  | none cs => exact hds.prepend cs
  | @next name names rest before hname _ ih =>
    rw [List.append_assoc, List.append_assoc]
    exact .next before hname ih

/-- What a scan finds is a selection. -/
theorem selects_of_cuts (h : Cuts markedName cs p) : Selects cs (p.rest.map Prod.fst) := by
  induction h with
  | last _ => exact .none _
  | @next front xs x hit p _ hhit _ ih =>
    obtain ⟨name, hname, rfl, hxs⟩ := exists_name hhit
    rw [hxs]
    exact .next front hname ih

/-- A name ends at the first mark behind its first character, so what follows another mark is behind
it as well. -/
theorem IsName.suffix {more : List Char} (hname : IsName name) (hne : more ≠ [])
    (heq : name ++ (mark ++ front) = more ++ (mark ++ back)) : back <:+ front := by
  rcases List.append_eq_append_iff.mp heq with ⟨s, -, hs⟩ | ⟨s, rfl, hs⟩
  · have hback : back <:+ mark ++ front := by
      rw [hs, ← List.append_assoc]
      exact List.suffix_append _ _
    have hlen : back.length ≤ front.length := by
      have hlen := congrArg List.length hs
      simp only [List.length_append] at hlen
      omega
    exact List.suffix_of_suffix_length_le hback (List.suffix_append mark front) hlen
  · by_cases hnil : s = []
    · subst hnil
      have hsame : back = front := List.append_cancel_left hs
      exact hsame ▸ List.suffix_rfl
    · have hmark : mark <+: s := mark_starts_append hnil ⟨back, hs⟩
      have htail : (more ++ s).tail = more.tail ++ s := List.tail_append_of_ne_nil hne
      have hunmarked := hname.unmarked
      rw [htail] at hunmarked
      exact absurd (hmark.isInfix.trans (List.suffix_append _ _).isInfix) hunmarked

/-- Where a pair starts no earlier than a variable, what is behind the pair is behind the variable. -/
theorem IsName.behind {first : List Char} (hname : IsName name) (hne : first ≠ [])
    (h : marked name ++ back = front ++ (marked first ++ after)) : after <:+ back := by
  by_cases hnil : front = []
  · subst hnil
    have htails : name ++ (mark ++ back) = first ++ (mark ++ after) := by
      simpa [marked] using h
    exact hname.suffix hne htails
  · have hmark : mark <+: front ++ (mark ++ (first ++ mark ++ after)) := by
      refine ⟨name ++ mark ++ back, ?_⟩
      simpa [marked] using h
    obtain ⟨more, rfl⟩ := mark_starts_append hnil hmark
    have htails : name ++ (mark ++ back) = more ++ (mark ++ first) ++ (mark ++ after) := by
      simpa [marked] using h
    exact hname.suffix (by simp [mark]) htails

/-- Of the pairs selected, all but the first lie behind the first variable. -/
theorem Selects.behind {first : List Char} {names : List (List Char)} (hname : IsName name)
    (hmiss : Misses markedName front (marked name ++ back))
    (h : Selects (front ++ (marked name ++ back)) (first :: names)) : Selects back names := by
  generalize hcs : front ++ (marked name ++ back) = cs at h
  cases h with
  | @next _ _ rest before hfirst h =>
    have hsuffix : rest <:+ back := by
      rcases List.append_eq_append_iff.mp hcs with ⟨s, -, hs⟩ | ⟨s, hs, hrest⟩
      · exact hname.behind hfirst.ne_nil hs
      · -- No pair starts before the first variable.
        have hnil : s = [] := by
          by_contra hne
          have hnone := hmiss s (hs ▸ List.suffix_append before s) hne
          rw [← hrest, markedName_eq_none_iff] at hnone
          exact hnone (hfirst.startsPair rest)
        subst hnil
        have hstart : marked name ++ back = [] ++ (marked first ++ rest) := hrest.symm
        exact hname.behind hfirst.ne_nil hstart
    obtain ⟨between, rfl⟩ := hsuffix
    exact h.prepend between

/-- **No selection has more names than a text has variables.** -/
theorem Selects.length_le {names : List (List Char)} (h : Selects cs names)
    (hp : Cuts markedName cs p) : names.length ≤ p.rest.length := by
  induction hp generalizing names with
  | last hmiss =>
    cases h with
    | none => exact Nat.le_refl _
    | @next name _ rest before hname _ =>
      have hnone := hmiss (marked name ++ rest) (List.suffix_append _ _) (by simp [marked, mark])
      rw [List.append_nil, markedName_eq_none_iff] at hnone
      exact absurd (hname.startsPair rest) hnone
  | @next front xs x hit p hmiss hhit _ ih =>
    cases names with
    | nil => exact Nat.zero_le _
    | cons first names =>
      obtain ⟨name, hname, rfl, hxs⟩ := exists_name hhit
      rw [hxs] at h hmiss
      exact Nat.succ_le_succ (ih (h.behind hname hmiss))

/-! ## What is written -/

/-- No caret follows a `<` in the text or could follow the text. -/
structure IsTame (cs : List Char) : Prop where
  chain : cs.IsChain fun c d => ¬(c = '<' ∧ d = '^')
  last : cs.getLast? ≠ some '<'

theorem IsTame.append (hcs : IsTame cs) (hds : IsTame ds) : IsTame (cs ++ ds) where
  chain := by
    rw [List.isChain_append]
    refine ⟨hcs.chain, hds.chain, ?_⟩
    rintro c hc d - ⟨rfl, -⟩
    exact hcs.last hc
  last := by
    rw [List.getLast?_append]
    cases hlast : ds.getLast? with
    | none => exact hcs.last
    | some d =>
      have hd := hds.last
      rwa [hlast] at hd

theorem IsTame.appendText {text more : String} (ht : IsTame text.toList) (hm : IsTame more.toList) :
    IsTame (text ++ more).toList := by
  rw [String.toList_append]
  exact ht.append hm

theorem IsTame.of_not_mem (h : '<' ∉ cs) : IsTame cs where
  chain := by
    induction cs with
    | nil => exact .nil
    | cons c cs ih =>
      rw [List.mem_cons, not_or] at h
      rw [List.isChain_cons]
      refine ⟨?_, ih h.2⟩
      rintro d - ⟨rfl, -⟩
      exact h.1 rfl
  last := fun hlast => h (List.mem_of_getLast? hlast)

theorem IsTame.flatMap {α : Type} {xs : List α} {f : α → List Char} (h : ∀ x ∈ xs, IsTame (f x)) :
    IsTame (xs.flatMap f) := by
  induction xs with
  | nil => exact .of_not_mem List.not_mem_nil
  | cons x xs ih =>
    rw [List.forall_mem_cons] at h
    exact h.1.append (ih h.2)

theorem IsTame.bracket {c : Char} (hc : c ≠ '^') (h : '<' ∉ c :: cs) : IsTame ('<' :: c :: cs) where
  chain := List.isChain_cons_cons.mpr ⟨fun hcaret => hc hcaret.2, (of_not_mem h).chain⟩
  last := by
    rw [List.getLast?_cons_cons]
    exact (of_not_mem h).last

theorem isTame_span {html : String} (h : IsTame html.toList) : IsTame (span html).toList := by
  have hopen : IsTame "<span class=\"highlight\">".toList := .bracket (by decide) (by decide)
  have hclose : IsTame "</span>".toList := .bracket (by decide) (by decide)
  exact (hopen.appendText h).appendText hclose

theorem IsTame.occurs_eq_false {text : String} (h : IsTame text.toList) : occurs text = false := by
  rw [← String.ofList_toList (s := text), occurs_eq_false_iff]
  intro s hs _
  rw [List.append_nil, markedName_eq_none_iff]
  rintro ⟨name, rest, -, -, rfl⟩
  have hchain := h.chain.suffix hs
  simp [marked, mark] at hchain

/-- Escapers that leave no `<` behind. -/
theorem occurs_highlight {plain name : String → String} (hplain : ∀ s, '<' ∉ (plain s).toList)
    (hname : ∀ s, '<' ∉ (name s).toList) (text : String) :
    occurs (highlight plain name text) = false := by
  apply IsTame.occurs_eq_false
  rw [highlight, String.toList_append, String.toList_join, List.flatMap_map]
  refine (IsTame.of_not_mem (hplain _)).append (.flatMap ?_)
  intro run _
  exact (isTame_span (.of_not_mem (hname _))).appendText (.of_not_mem (hplain _))

/-- The escapers of code, of attributes and of prose. -/
def escapers : List (String → String) := [Html.escapeCode, Html.escape, Prose.escape]

theorem not_mem_of_mem_escapers {escape : String → String} (h : escape ∈ escapers) (s : String) :
    '<' ∉ (escape s).toList := by
  simp only [escapers, List.mem_cons, List.not_mem_nil, or_false] at h
  rcases h with rfl | rfl | rfl
  · exact Html.bracket_not_mem_escapeCode s
  · exact Html.bracket_not_mem_escape s
  · exact (Prose.not_mem_escape s).1

/-- **A text has one decomposition into variables and what lies between them**, and what is written
are its parts. -/
theorem exists_decomposition (text : String) : ∃ p, IsDecomposition text.toList p
    ∧ (∀ q, IsDecomposition text.toList q → q = p)
    ∧ (∀ plain name : String → String, highlight plain name text = plain (String.ofList p.first)
        ++ String.join (p.rest.map fun (n, after) =>
          span (name (String.ofList n)) ++ plain (String.ofList after)))
    ∧ (p.rest = [] ↔ occurs text = false)
    ∧ ∀ plain ∈ escapers, ∀ name ∈ escapers, occurs (highlight plain name text) = false := by
  refine ⟨pieces markedName text.toList, isDecomposition_iff.mpr rfl, ?_, ?_, ?_, ?_⟩
  · intro q hq
    exact isDecomposition_iff.mp hq
  · intro plain name
    rfl
  · rw [occurs, occurs_eq]
    simp
  · intro plain hplain name hname
    exact occurs_highlight (not_mem_of_mem_escapers hplain) (not_mem_of_mem_escapers hname) text

-- Of three marks in a row, the second belongs to the name.
example : IsDecomposition "<^><^>x<^><^>".toList ⟨[], [("<^>x".toList, "<^>".toList)]⟩ :=
  isDecomposition_iff.mpr rfl

end Variable

end MarkdownPreview
