import MarkdownPreview.Proofs.Links.Anchors
import MarkdownPreview.Proofs.Rules.Run

/-!
# Links of a preview that marks them

If the rule of links is enabled, every link of a preview has one relation, `nofollow`, and what was
written as a link or an image leads to the web or into the document (`Preview.tokens_links`). The
rule may stand anywhere among the others: those before it leave a link without relation or with that
one, and those after it take nothing back.

A bare address is no link within an `<a>` element written by hand. For that, the number of such
elements that a line carries along is the number its tokens leave open (`openAnchors`).
-/

set_option autoImplicit false

namespace MarkdownPreview

/-! ## Attributes -/

/-- The attributes of a name. -/
def Attrs.named (attrs : Attrs) (name : String) : Attrs := attrs.filter fun a => a.1 = name

theorem Attrs.named_set (name value : String) : ∀ attrs : Attrs,
    (attrs.set name value).named name = (name, value) :: (attrs.named name).tail
  | [] => by simp [Attrs.set, Attrs.named]
  | (key, old) :: attrs => by
    have ih := Attrs.named_set name value attrs
    rw [Attrs.set]
    split
    · rename_i hkey
      simp [Attrs.named, hkey]
    · rename_i hkey
      rw [Attrs.named, List.filter_cons_of_neg (by simpa using hkey), ← Attrs.named, ih,
        Attrs.named, Attrs.named, List.filter_cons_of_neg (by simpa using hkey)]

theorem Attrs.get?_set_of_ne {name other : String} (h : other ≠ name) (value : String) :
    ∀ attrs : Attrs, (attrs.set name value).get? other = attrs.get? other
  | [] => by
    have hne : (other == name) = false := beq_eq_false_iff_ne.mpr h
    rw [Attrs.set, Attrs.get?, List.lookup_cons, hne]
    rfl
  | (key, old) :: attrs => by
    have ih := Attrs.get?_set_of_ne h value attrs
    unfold Attrs.get? at ih ⊢
    rw [Attrs.set]
    split
    · rename_i hkey
      have hne : (other == key) = false := beq_eq_false_iff_ne.mpr (hkey ▸ h)
      rw [List.lookup_cons, List.lookup_cons, hne]
    · rw [List.lookup_cons, List.lookup_cons, ih]

theorem Attrs.get?_set_self (name value : String) :
    ∀ attrs : Attrs, (attrs.set name value).get? name = some value
  | [] => by
    rw [Attrs.set, Attrs.get?, List.lookup_cons, beq_self_eq_true]
  | (key, old) :: attrs => by
    have ih := Attrs.get?_set_self name value attrs
    unfold Attrs.get? at ih ⊢
    rw [Attrs.set]
    split
    · rename_i hkey
      rw [List.lookup_cons, hkey, beq_self_eq_true]
    · rename_i hkey
      have hne : (name == key) = false := beq_eq_false_iff_ne.mpr (Ne.symm hkey)
      rw [List.lookup_cons, hne, ih]

/-! ## Single links and images -/

namespace Token

/-- A link has no relation but `nofollow`, and that once at most. -/
def Unrelated (t : Token) : Prop :=
  t.kind = .opening .link →
    t.attrs.named "rel" = [] ∨ t.attrs.named "rel" = [("rel", "nofollow")]

/-- A link has one relation, `nofollow`. -/
def Marked (t : Token) : Prop :=
  t.kind = .opening .link → t.attrs.named "rel" = [("rel", "nofollow")]

/-- What was written as a link or an image leads to the web or into the document. -/
def Admitted (t : Token) : Prop :=
  (t.kind = .opening .link → t.markup = "" →
      ∃ url, t.attrs.get? "href" = some url ∧ Markdown.isWebOrFragment url = true)
    ∧ (t.kind = .image →
      ∃ url, t.attrs.get? "src" = some url ∧ Markdown.isWebOrFragment url = true)

end Token

variable {t u : Token}

theorem Token.Marked.unrelated (h : t.Marked) : t.Unrelated := fun hk => .inr (h hk)

theorem Token.Unrelated.setAttr (h : t.Unrelated) (hk : t.kind = .opening .link) :
    (t.setAttr "rel" "nofollow").Marked := by
  intro _
  rw [Token.setAttr, Attrs.named_set]
  rcases h hk with h | h <;> rw [h] <;> rfl

theorem Token.Unrelated.markLink (h : t.Unrelated) : (Markdown.markLink t).Marked := by
  unfold Markdown.markLink
  split
  · rename_i hk
    exact h.setAttr hk
  · rename_i hk
    exact fun hk' => absurd hk' hk

theorem Token.Unrelated.edit (he : Edit t u) (h : t.Unrelated) : u.Unrelated := by
  cases he with
  | refl => exact h
  | content content hk => exact h
  | anchor id hk => exact fun hl => by cases hk.symm.trans hl
  | mark hk => exact (h.setAttr hk).unrelated
  | html html hk hw => exact nofun

theorem Token.Marked.edit (he : Edit t u) (h : t.Marked) : u.Marked := by
  cases he with
  | refl => exact h
  | content content hk => exact h
  | anchor id hk => exact fun hl => by cases hk.symm.trans hl
  | mark hk => exact h.unrelated.setAttr hk
  | html html hk hw => exact nofun

theorem Token.Admitted.edit (he : Edit t u) (h : t.Admitted) : u.Admitted := by
  cases he with
  | refl => exact h
  | content content hk => exact h
  | anchor id hk =>
    exact ⟨fun hl => (by cases hk.symm.trans hl), fun hi => (by cases hk.symm.trans hi)⟩
  | mark hk =>
    refine ⟨fun hl hm => ?_, fun hi => by cases hk.symm.trans hi⟩
    rw [Token.setAttr, Attrs.get?_set_of_ne (by decide)]
    exact h.1 hl hm
  | html html hk hw => exact ⟨nofun, nofun⟩

theorem TokenLasting.unrelated : TokenLasting fun _ t => t.Unrelated where
  blind _ h := h
  edit he h := h.edit he
  text _ _ := nofun
  html _ := nofun

theorem TokenLasting.marked : TokenLasting fun _ t => t.Marked where
  blind _ h := h
  edit he h := h.edit he
  text _ _ := nofun
  html _ := nofun

theorem TokenLasting.admitted : TokenLasting fun _ t => t.Admitted where
  blind _ h := h
  edit he h := h.edit he
  text _ _ := ⟨nofun, nofun⟩
  html _ := ⟨nofun, nofun⟩

/-! ## Lowering -/

section

open Markdown

variable {acceptance : Acceptance} {p : Node → Bool}

theorem Markdown.BlockToken.unrelated (h : BlockToken p t) : t.Unrelated ∧ t.Admitted := by
  cases h with
  | opening attrs markup hidden htag _ =>
    have hne : ∀ x ∈ blockTags, x.1 ≠ .link := by decide
    exact ⟨fun hl => absurd (Kind.opening.inj hl) (hne _ htag),
      fun hl => absurd (Kind.opening.inj hl) (hne _ htag), nofun⟩
  | code _ _ _ hk => rcases hk with rfl | rfl <;> exact ⟨nofun, nofun, nofun⟩
  | _ => exact ⟨nofun, nofun, nofun⟩

theorem Markdown.LineToken.unrelated (h : LineToken .strict p t) : t.Unrelated ∧ t.Admitted := by
  cases h with
  | «break» hk => rcases hk with rfl | rfl <;> exact ⟨nofun, nofun, nofun⟩
  | spanOpening markup htag =>
    have hne : ∀ x ∈ spanTags, x.1 ≠ .link := by decide
    exact ⟨fun hl => absurd (Kind.opening.inj hl) (hne _ htag),
      fun hl => absurd (Kind.opening.inj hl) (hne _ htag), nofun⟩
  | linkOpening url title? hu =>
    refine ⟨fun _ => .inl ?_, fun _ hm => ⟨url, rfl, hu hm⟩, nofun⟩
    cases title? <;> rfl
  | picture url alt title? hu => exact ⟨nofun, nofun, fun _ => ⟨url, rfl, hu⟩⟩
  | _ => exact ⟨nofun, nofun, nofun⟩

end

/-! ## Previews -/

theorem Token.Admitted.markLink (h : t.Admitted) : (Markdown.markLink t).Admitted :=
  h.edit (.markLink t)

theorem Leads.markLinks : Leads (fun _ => List.map Markdown.markLink)
    (fun _ ts => ∀ t ∈ ts, t.Unrelated ∧ t.Admitted)
    (fun _ ts => ∀ t ∈ ts, t.Marked ∧ t.Admitted) where
  blind := (TokenLasting.unrelated.and TokenLasting.admitted).lasting.blind
  level _ ts h hb := by
    refine ⟨?_, holdBelow_iff.mpr ?_⟩
    · intro u hu
      obtain ⟨t, ht, rfl⟩ := List.mem_map.mp hu
      exact ⟨(h t ht).1.markLink, (h t ht).2.markLink⟩
    · intro u hu
      obtain ⟨t, ht, rfl⟩ := List.mem_map.mp hu
      exact (Edit.markLink t).holdsBelow (holdBelow_iff.mp hb t ht)

theorem everywhere_unrelated (d : Document) (superscript : Bool) :
    Everywhere (fun _ t => t.Unrelated ∧ t.Admitted) (d.tokens .strict superscript) :=
  Markdown.everywhere_tokens (p := fun _ => true) d.text .strict superscript
    (fun _ h => h.unrelated) (fun _ _ => ⟨nofun, nofun, nofun⟩) (fun _ h => h.unrelated)
    (fun _ => ⟨nofun, nofun, nofun⟩) (Markdown.Node.all_true d.tree)

theorem Preview.acceptance_eq_strict {p : Preview} (h : Rule.links ∈ p.enabled) :
    p.acceptance = .strict :=
  if_pos (List.contains_iff_mem.mpr h)

/-- Links are marked from when their rule has run. -/
theorem Preview.everywhere_marked (p : Preview) (d : Document) (h : Rule.links ∈ p.enabled) :
    Everywhere (fun _ t => t.Marked ∧ t.Admitted) (p.tokens d) := by
  -- Some rules may run before the one that marks links, and some after it.
  obtain ⟨before, after, henabled⟩ := List.append_of_mem h
  have hlowered := everywhere_unrelated d p.options.superscript
  have hbefore := (TokenLasting.unrelated.and TokenLasting.admitted).runRules p.conditions before
    (d := ⟨d.tokens .strict p.options.superscript, {}⟩) hlowered
  have hmarked := EveryLevel.mapLevels Leads.markLinks hbefore
  rw [p.tokens_eq, p.acceptance_eq_strict h, henabled, runRules_append]
  exact (TokenLasting.marked.and TokenLasting.admitted).runRules p.conditions after
    (d := Rule.run p.conditions .links (runRules p.conditions before _)) hmarked

/-- **Links of a preview that marks them.** Every link has the one relation `nofollow`; what was
written as a link or an image has an accepted destination; and in the text of a block as it was
lowered, no bare address is a link within an `<a>` element written by hand. -/
theorem Preview.tokens_links (p : Preview) (d : Document) (h : Rule.links ∈ p.enabled) :
    Everywhere (fun _ t => t.Marked ∧ t.Admitted) (p.tokens d)
      ∧ ∀ t ∈ d.tokens p.acceptance p.options.superscript, t.kind = .inline →
        ∀ before link after, t.inner = before ++ link :: after → Markdown.IsBareLink link →
          Markdown.openAnchors before = 0 := by
  refine ⟨p.everywhere_marked d h, ?_⟩
  intro t ht hk before link after hinner hl
  rw [p.acceptance_eq_strict h] at ht
  have hflow := Markdown.flow_tokens (p := fun _ => true) d.text .strict p.options.superscript
    (Markdown.Node.all_true d.tree)
  rcases hflow.cases_of_mem ht with hb | ⟨content, us, rfl, hrun⟩
  · exact absurd hk hb.kind_ne_inline
  · have houtside : Markdown.Outside 0 (before ++ link :: after) := hinner ▸ hrun.outside
    exact houtside.openAnchors_eq_zero hl

/-- A document with a script as a destination, and a bare address within an element. -/
def Document.linked : Document where
  source := "[a](javascript:b)\n<a>https://c</a>"
  tree := .root none [.paragraph none
    [.link (some ⟨0, 17⟩) "javascript:b" none [.text (some ⟨1, 2⟩) "a"], .text none "\n",
      .html none "<a>", .link (some ⟨21, 30⟩) "https://c" none [.text (some ⟨21, 30⟩) "https://c"],
      .html none "</a>"]]

theorem Document.tokens_linked : Rule.links ∈ [Rule.comments, .links, .variables] ∧
    Everywhere (fun _ t => t.Marked ∧ t.Admitted)
      (Preview.tokens ⟨{ html := true }, [.comments, .links, .variables]⟩ Document.linked)
      ∧ ∀ t ∈ Document.linked.tokens .strict false, t.kind = .inline →
        ∀ before link after, t.inner = before ++ link :: after → Markdown.IsBareLink link →
          Markdown.openAnchors before = 0 := by
  have h : Rule.links ∈ [Rule.comments, .links, .variables] := by decide
  exact ⟨h, Preview.tokens_links ⟨{ html := true }, [.comments, .links, .variables]⟩
    Document.linked h⟩

end MarkdownPreview
