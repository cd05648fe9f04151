import MarkdownPreview.Preview.Basic
import MarkdownPreview.Proofs.Rules.Comments

/-!
# What the rules keep

A property of levels that lasts holds of every level after any rule but that of notes has run
(`Lasting.run`), and a property of tokens that lasts holds of every token after any rule at all
(`TokenLasting.run`), and so after any sequence of such rules (`runRules`).
-/

set_option autoImplicit false

namespace MarkdownPreview

variable {Q : LevelProp} {parent? : Option Kind} {ts : List Token}

/-! ## The rules as edits of a level -/

theorem editedTo_addAll : ∀ (ts : List Token) (taken : Slug.Registry),
    EditedTo ts (Anchor.addAll Rule.anchors ts taken).1
  | [], _ => .nil
  | t :: ts, taken => by
    rw [Anchor.addAll]
    split
    · rename_i hsel
      have hk : t.kind = .opening .heading := by
        rw [Anchor.isSelected, Bool.and_eq_true, beq_iff_eq] at hsel
        exact hsel.1
      split
      · exact .cons (.refl t) (editedTo_addAll ts _)
      · exact .cons (.anchor t _ hk) (editedTo_addAll ts _)
    · exact .cons (.refl t) (editedTo_addAll ts taken)

theorem editedTo_renderLevel (spaced : Bool) : ∀ ts : List Token,
    EditedTo ts (Sample.renderLevel spaced ts)
  | [] => .nil
  | t :: ts => by
    rw [Sample.renderLevel]
    refine .cons ?_ (editedTo_renderLevel spaced ts)
    split
    · rename_i hfence
      exact .html t _ (.inr (.inr hfence.1)) (.sample _ _ _)
    · exact .refl t

theorem Variable.kinds_of_takenApart? {before up raised down after : Token} {name : String}
    (h : takenApart? before up raised down after = some name) :
    before.kind = .text ∧ up.kind = .opening .sup ∧ raised.kind = .text
      ∧ down.kind = .closing .sup ∧ after.kind = .text := by
  unfold takenApart? at h
  split at h
  · assumption
  · cases h

/-- What outlives every edit holds of all tokens after variables have been put together. -/
theorem forall_mem_rejoinFrom {P : Token → Prop} (hP : ∀ {t u}, Edit t u → P t → P u)
    (before : Token) (ts : List Token) (hb : P before) (h : ∀ t ∈ ts, P t) :
    ∀ u ∈ Variable.rejoinFrom before ts, P u := by
  induction before, ts using Variable.rejoinFrom.induct with
  | case1 before up raised down after ts name hname ih =>
    obtain ⟨hbk, -, hrk, -, hak⟩ := Variable.kinds_of_takenApart? hname
    rw [Variable.rejoinFrom, hname]
    intro u hu
    rcases List.mem_cons.mp hu with rfl | hu
    · exact hP (.content before _ (.inl hbk)) hb
    · rcases List.mem_cons.mp hu with rfl | hu
      · exact hP (.html raised _ (.inl hrk) (.raised name)) (h raised (by simp))
      · exact ih (hP (.content after _ (.inl hak)) (h after (by simp)))
          (fun t ht => h t (by simp [ht])) u hu
  | case2 before up raised down after ts hname ih =>
    rw [Variable.rejoinFrom, hname]
    intro u hu
    rcases List.mem_cons.mp hu with rfl | hu
    · exact hb
    · exact ih (h up List.mem_cons_self) (fun t ht => h t (List.mem_cons_of_mem _ ht)) u hu
  | case3 before ts hshort =>
    rw [Variable.rejoinFrom]
    · exact List.forall_mem_cons.mpr ⟨hb, h⟩
    · exact hshort

theorem forall_mem_rejoin {P : Token → Prop} (hP : ∀ {t u}, Edit t u → P t → P u)
    (h : ∀ t ∈ ts, P t) : ∀ u ∈ Variable.rejoin ts, P u := by
  cases ts with
  | nil => exact h
  | cons t ts =>
    rw [List.forall_mem_cons] at h
    exact forall_mem_rejoinFrom hP t ts h.1 h.2

/-! ## Levels -/

theorem HoldsAt.highlightLevel (hQ : Lasting Q) (h : HoldsAt Q parent? ts) :
    HoldsAt Q parent? (Variable.highlightLevel parent? ts) := by
  have hrejoined : HoldsAt Q parent? (Variable.rejoin ts) :=
    ⟨hQ.rejoin h.1,
      holdBelow_iff.mpr (forall_mem_rejoin Edit.holdsBelow (holdBelow_iff.mp h.2))⟩
  unfold Variable.highlightLevel
  split
  · exact hrejoined.edit hQ (EditedTo.map Edit.highlightToken _)
  · exact h.edit hQ (EditedTo.map Edit.highlightToken _)

theorem HoldsAt.addLevel (hQ : Lasting Q) (h : HoldsAt Q parent? ts) :
    HoldsAt Q parent? (BlankLines.addLevel ts) := by
  refine ⟨hQ.spaced h.1, holdBelow_iff.mpr ?_⟩
  intro t ht
  rcases mem_addLevel ht with ht | rfl
  · exact holdBelow_iff.mp h.2 t ht
  · exact Token.holdsBelow_of_none rfl

theorem Lasting.leads (hQ : Lasting Q) {f : Option Kind → List Token → List Token}
    (hf : ∀ {parent? ts}, HoldsAt Q parent? ts → HoldsAt Q parent? (f parent? ts)) :
    Leads f Q Q :=
  ⟨hQ.blind, fun _ _ hq hb => hf ⟨hq, hb⟩⟩

/-- **A property that lasts holds of every level after any rule but that of notes.** -/
theorem Lasting.run (hQ : Lasting Q) (c : Conditions) {r : Rule} (hr : r ≠ .notes) {d : Draft}
    (h : EveryLevel Q d.tokens) : EveryLevel Q (r.run c d).tokens := by
  match r with
  | .headings => exact h.edit hQ (editedTo_addAll d.tokens d.slugs)
  | .links =>
    exact h.mapLevels (hQ.leads fun h => h.edit hQ (EditedTo.map Edit.markLink _))
  | .comments =>
    rw [Rule.run]
    split
    · exact h
    · exact Comment.everyLevel_removeAll hQ h
  | .notes => exact absurd rfl hr
  | .variables => exact h.mapLevels (hQ.leads fun h => h.highlightLevel hQ)
  | .samples =>
    exact h.mapLevels (hQ.leads fun h => h.edit hQ (editedTo_renderLevel c.spaced _))
  | .spacing => exact h.mapLevels (hQ.leads fun h => h.addLevel hQ)

/-! ## Tokens -/

theorem TokenLasting.and {P P' : Option Kind → Token → Prop} (hP : TokenLasting P)
    (hP' : TokenLasting P') : TokenLasting fun parent? t => P parent? t ∧ P' parent? t where
  blind children h := ⟨hP.blind children h.1, hP'.blind children h.2⟩
  edit he h := ⟨hP.edit he h.1, hP'.edit he h.2⟩
  text parent? content := ⟨hP.text parent? content, hP'.text parent? content⟩
  html hw := ⟨hP.html hw, hP'.html hw⟩

theorem TokenLasting.lasting {P : Option Kind → Token → Prop} (hP : TokenLasting P) :
    Lasting fun parent? ts => ∀ t ∈ ts, P parent? t where
  blind := by
    intro parent? ts us hchildless h u hu
    have hmem : u.childless ∈ ts.map Token.childless :=
      hchildless ▸ List.mem_map_of_mem hu
    obtain ⟨t, ht, htu⟩ := List.mem_map.mp hmem
    have hut : u = { t with children := u.children } := by
      cases t; cases u; simp_all [Token.childless]
    rw [hut]
    exact hP.blind _ (h t ht)
  edit he h := he.forall_mem hP.edit h
  within start stop h t ht := h t ((removeWithin_sublist start stop _).subset ht)
  block _ h t ht := h t ((takeOutBlock_sublist _ _).subset ht)
  before n h t ht := h t (List.mem_of_mem_take ((keepPaired_sublist _).subset ht))
  after n h t ht := h t (List.mem_of_mem_drop ((keepPaired_sublist _).subset ht))
  rejoin h := forall_mem_rejoin hP.edit h
  spaced h t ht := by
    rcases mem_addLevel ht with ht | rfl
    · exact h t ht
    · exact hP.text _ _

/-! ## Notes -/

/-- A token that the rule of notes makes. -/
inductive Made : Token → Prop
  | text (content : String) : Made (Token.text content)
  | html {html : String} (hw : Written html) : Made (Token.html html)

theorem Made.holdsBelow {t : Token} (h : Made t) : t.HoldsBelow Q := by
  cases h with
  | text content => exact Token.holdsBelow_of_none rfl
  | html hw => exact Token.holdsBelow_of_none rfl

theorem TokenLasting.made {P : Option Kind → Token → Prop} (hP : TokenLasting P) {t : Token}
    (h : Made t) : P parent? t := by
  cases h with
  | text content => exact hP.text _ content
  | html hw => exact hP.html hw

theorem made_of_mem_close {last t : Token} (h : t ∈ Note.close last) : Made t := by
  unfold Note.close at h
  split at h
  · rcases List.mem_cons.mp h with rfl | h
    · exact .text _
    · rw [List.mem_singleton.mp h]
      exact .html .noteClosing
  · rw [List.mem_singleton.mp h]
    exact .html .noteClosing

theorem made_of_mem_openWith {kind : Note.NoteKind} {first t : Token}
    (h : t ∈ Note.openWith kind first) : Made t := by
  unfold Note.openWith at h
  split at h
  · rcases List.mem_cons.mp h with rfl | h
    · exact .html (.noteOpening kind)
    · rw [List.mem_singleton.mp h]
      exact .text _
  · rw [List.mem_singleton.mp h]
    exact .html (.noteOpening kind)

theorem mem_of_mem_dropSecondBreak {t : Token} (h : t ∈ Note.dropSecondBreak ts) : t ∈ ts := by
  unfold Note.dropSecondBreak at h
  split at h
  · split at h
    · rcases List.mem_cons.mp h with rfl | h
      · exact List.mem_cons_self
      · exact List.mem_cons_of_mem _ (List.mem_cons_of_mem _ h)
    · exact h
  · exact h

/-- A note consists of its old tokens, text cut from them, and its two tags. -/
theorem mem_wrap {kind : Note.NoteKind} {t : Token} (ht : t ∈ Note.wrap kind ts) :
    t ∈ ts ∨ Made t := by
  unfold Note.wrap at ht
  split at ht
  · cases ht
  · rename_i last hlast
    split at ht
    · rename_i first rest hsplit
      rcases List.mem_append.mp (mem_of_mem_dropSecondBreak ht) with ht | ht
      · exact .inr (made_of_mem_openWith ht)
      · -- The rest is what stands after the first token once the last one has been closed.
        have hmem : t ∈ ts.dropLast ++ Note.close last := hsplit ▸ List.mem_cons_of_mem _ ht
        rcases List.mem_append.mp hmem with hmem | hmem
        · exact .inl (List.dropLast_subset ts hmem)
        · exact .inr (made_of_mem_close hmem)
    · cases ht

/-- A property of tokens that lasts holds of the tokens of a note. -/
theorem TokenLasting.wrap {P : Option Kind → Token → Prop} (hP : TokenLasting P)
    {kind : Note.NoteKind} (h : HoldsAt (fun parent? ts => ∀ t ∈ ts, P parent? t) parent? ts) :
    HoldsAt (fun parent? ts => ∀ t ∈ ts, P parent? t) parent? (Note.wrap kind ts) := by
  refine ⟨?_, holdBelow_iff.mpr ?_⟩
  · intro t ht
    rcases mem_wrap ht with ht | hmade
    · exact h.1 t ht
    · exact hP.made hmade
  · intro t ht
    rcases mem_wrap ht with ht | hmade
    · exact holdBelow_iff.mp h.2 t ht
    · exact hmade.holdsBelow

theorem TokenLasting.wrapAll {P : Option Kind → Token → Prop} (hP : TokenLasting P)
    (h : Everywhere P ts) : Everywhere P (Note.wrapAll ts) := by
  refine ⟨?_, holdBelow_iff.mpr ?_⟩
  · intro u hu
    obtain ⟨t, ht, rfl⟩ := List.mem_map.mp hu
    unfold Note.wrapToken
    split
    · exact hP.blind _ (h.1 t ht)
    · exact h.1 t ht
  · intro u hu
    obtain ⟨t, ht, rfl⟩ := List.mem_map.mp hu
    have htb := holdBelow_iff.mp h.2 t ht
    unfold Note.wrapToken
    split
    · refine Token.holdsBelow_iff.mpr ?_
      intro cs hcs
      obtain ⟨us, hus, rfl⟩ := Option.map_eq_some_iff.mp hcs
      exact hP.wrap (Token.holdsBelow_iff.mp htb us hus)
    · exact htb

/-- **A property of tokens that lasts holds of every token after any rule.** -/
theorem TokenLasting.run {P : Option Kind → Token → Prop} (hP : TokenLasting P) (c : Conditions)
    (r : Rule) {d : Draft} (h : Everywhere P d.tokens) : Everywhere P (r.run c d).tokens := by
  by_cases hr : r = .notes
  · subst hr
    exact hP.wrapAll h
  · exact hP.lasting.run c hr h

/-! ## Sequences of rules -/

/-- Runs rules, one after the other. -/
def runRules (c : Conditions) (rules : List Rule) (d : Draft) : Draft :=
  rules.foldl (fun d r => r.run c d) d

theorem runRules_append (c : Conditions) (rules rules' : List Rule) (d : Draft) :
    runRules c (rules ++ rules') d = runRules c rules' (runRules c rules d) :=
  List.foldl_append

/-- The tokens of a preview are those that its rules leave. -/
theorem Preview.tokens_eq (p : Preview) (d : Document) :
    p.tokens d = (runRules p.conditions p.enabled
      { tokens := d.tokens p.acceptance p.options.superscript }).tokens := rfl

theorem Lasting.runRules (hQ : Lasting Q) (c : Conditions) {rules : List Rule}
    (hn : Rule.notes ∉ rules) {d : Draft} (h : EveryLevel Q d.tokens) :
    EveryLevel Q (runRules c rules d).tokens := by
  induction rules generalizing d with
  | nil => exact h
  | cons r rules ih =>
    rw [List.mem_cons, not_or] at hn
    exact ih hn.2 (hQ.run c (Ne.symm hn.1) h)

theorem TokenLasting.runRules {P : Option Kind → Token → Prop} (hP : TokenLasting P)
    (c : Conditions) (rules : List Rule) {d : Draft} (h : Everywhere P d.tokens) :
    Everywhere P (runRules c rules d).tokens := by
  induction rules generalizing d with
  | nil => exact h
  | cons r rules ih => exact ih (hP.run c r h)

end MarkdownPreview
