import MarkdownPreview.Preview.Basic

/-!
# Where tokens touch

How a token is written depends on its neighbours, but only on what they are to a line feed between
block tags. Text and finished HTML are nothing to it and have no tag themselves (`IsSeamless`), so
a stretch of them can be cut into tokens in one way or another: if the stretches read the same, the
whole line does (`renderAfter_flatMap`).
-/

set_option autoImplicit false

namespace MarkdownPreview

open Html

variable {t u : Token} {ts us : List Token} {previous? previous'? next? next'? : Option Token}

/-- Text and finished HTML, which no neighbour has to heed. -/
structure Token.IsSeamless (t : Token) : Prop where
  kind : t.kind = .text ∨ t.kind = .htmlBlock
  hidden : t.hidden = false
  nesting : t.nesting ≠ .closing

theorem Token.isSeamless_text (content : String) : (Token.text content).IsSeamless :=
  ⟨.inl rfl, rfl, nofun⟩

theorem Token.isSeamless_html (content : String) : (Token.html content).IsSeamless :=
  ⟨.inr rfl, rfl, nofun⟩

namespace Html

/-! ## Places -/

/-- Every token has one place. -/
theorem map_token_places (ts : List Token) : (places ts).map Place.token = ts := by
  have hafter : ∀ (ts : List Token) (previous? : Option Token),
      (placesAfter previous? ts).map Place.token = ts := by
    intro ts
    induction ts with
    | nil =>
      intro _
      rfl
    | cons t ts ih =>
      intro _
      rw [placesAfter, List.map_cons, ih]
  exact hafter ts none

theorem flatMap_places {α : Type} (f : Token → List α) (ts : List Token) :
    (places ts).flatMap (fun p => f p.token) = ts.flatMap f := by
  have h := congrArg (List.flatMap f) (map_token_places ts)
  rwa [List.flatMap_map] at h

theorem mem_of_mem_places {p : Place} (h : p ∈ places ts) : p.token ∈ ts := by
  rw [← map_token_places ts]
  exact List.mem_map_of_mem h

namespace Place

/-- What stands before a tag is asked only whether it is hidden. -/
theorem startsLine_none (h : ∀ t ∈ previous?, t.hidden = false) :
    startsLine ⟨previous?, t, next?⟩ = startsLine ⟨none, t, next'?⟩ := by
  cases previous? <;> simp_all [startsLine]

theorem endsLine_none (h : ∀ t ∈ next?, t.IsSeamless) :
    endsLine ⟨previous?, t, next?⟩ = endsLine ⟨none, t, none⟩ := by
  cases next? with
  | none => rfl
  | some next =>
    obtain ⟨hkind, hhidden, hnesting⟩ := h next rfl
    have hk : next.kind ≠ .inline := by
      rcases hkind with hkind | hkind <;> simp [hkind]
    simp [endsLine, hk, hhidden, hnesting]

end Place

end Html

namespace Preview

variable (p : Preview)

/-- The neighbours of a token are heeded only where its tag might stand on a line of its own. -/
theorem renderPlace_congr
    (hs : Place.startsLine ⟨previous?, t, next?⟩ = Place.startsLine ⟨previous'?, t, next'?⟩)
    (he : Place.endsLine ⟨previous?, t, next?⟩ = Place.endsLine ⟨previous'?, t, next'?⟩) :
    p.renderer.renderPlace ⟨previous?, t, next?⟩
      = p.renderer.renderPlace ⟨previous'?, t, next'?⟩ := by
  have htag (flags : Flags) :
      tag flags ⟨previous?, t, next?⟩ = tag flags ⟨previous'?, t, next'?⟩ := by
    simp only [tag, hs, he]
  unfold Html.Renderer.renderPlace
  cases hk : t.kind with
  | opening e => exact htag _
  | closing e => exact htag _
  | hr => exact htag _
  | inline => exact htag _
  | fence | codeBlock | codeInline => rfl
  | text | htmlBlock | htmlInline => rfl
  | softbreak | hardbreak | image => rfl

/-- How a token is written that stands alone. -/
def renderAlone (t : Token) : String := p.renderer.renderPlace ⟨none, t, none⟩

theorem renderPlace_seamless (h : t.IsSeamless) :
    p.renderer.renderPlace ⟨previous?, t, next?⟩ = p.renderAlone t := by
  unfold renderAlone Html.Renderer.renderPlace
  rcases h.kind with hk | hk
  · simp only [hk]
    rfl
  · simp only [hk]
    rfl

theorem renderAlone_text (content : String) :
    p.renderAlone (Token.text content) = Prose.escape content := rfl

theorem renderAlone_html (content : String) : p.renderAlone (Token.html content) = content := rfl

/-- How tokens are written that stand after `previous?`. -/
def renderAfter (previous? : Option Token) (ts : List Token) : String :=
  String.join ((placesAfter previous? ts).map p.renderer.renderPlace)

theorem renderAfter_cons (previous? : Option Token) (t : Token) (ts : List Token) :
    p.renderAfter previous? (t :: ts)
      = p.renderer.renderPlace ⟨previous?, t, ts.head?⟩ ++ p.renderAfter (some t) ts := by
  rw [renderAfter, placesAfter, List.map_cons, String.join_cons, renderAfter]

theorem renderAfter_none (h : ∀ t ∈ previous?, t.hidden = false) (ts : List Token) :
    p.renderAfter previous? ts = p.renderAfter none ts := by
  cases ts with
  | nil => rfl
  | cons t ts =>
    rw [renderAfter_cons, renderAfter_cons,
      p.renderPlace_congr (Place.startsLine_none h) (by rfl)]

/-- **A seamless stretch is written for itself.** -/
theorem renderAfter_append (hus : us ≠ []) (h : ∀ u ∈ us, u.IsSeamless) (ts : List Token) :
    p.renderAfter previous? (us ++ ts)
      = String.join (us.map p.renderAlone) ++ p.renderAfter none ts := by
  induction us generalizing previous? with
  | nil => exact absurd rfl hus
  | cons u us ih =>
    rw [List.forall_mem_cons] at h
    rw [List.cons_append, renderAfter_cons, p.renderPlace_seamless h.1, List.map_cons,
      String.join_cons, String.append_assoc]
    congr 1
    by_cases hne : us = []
    · subst hne
      rw [List.nil_append, p.renderAfter_none (by simpa using h.1.hidden)]
      simp
    · exact ih hne h.2

/-- Two stretches that can be put in each other's place. -/
structure Interchangeable (us us' : List Token) : Prop where
  ne_nil : us ≠ []
  ne_nil' : us' ≠ []
  seamless : ∀ u ∈ us, u.IsSeamless
  seamless' : ∀ u ∈ us', u.IsSeamless
  same : String.join (us.map p.renderAlone) = String.join (us'.map p.renderAlone)

variable {f g : Token → List Token}

theorem endsLine_flatMap
    (h : ∀ t ∈ ts, (∃ u, f t = [u] ∧ g t = [u]) ∨ p.Interchangeable (f t) (g t)) :
    Place.endsLine ⟨previous?, t, (ts.flatMap f).head?⟩
      = Place.endsLine ⟨previous?, t, (ts.flatMap g).head?⟩ := by
  have hhead {us vs : List Token} (hne : us ≠ []) (hs : ∀ u ∈ us, u.IsSeamless) :
      ∀ u ∈ (us ++ vs).head?, u.IsSeamless := by
    cases us with
    | nil => exact absurd rfl hne
    | cons u us =>
      rintro w hw
      cases hw
      exact hs u List.mem_cons_self
  cases ts with
  | nil => rfl
  | cons u ts =>
    rw [List.flatMap_cons, List.flatMap_cons]
    rcases h u List.mem_cons_self with ⟨v, hf, hg⟩ | hfg
    · rw [hf, hg]
      rfl
    · rw [Place.endsLine_none (hhead hfg.ne_nil hfg.seamless),
        Place.endsLine_none (hhead hfg.ne_nil' hfg.seamless')]

/-- **Stretches that read the same do not change what is around them.** -/
theorem renderAfter_flatMap
    (h : ∀ t ∈ ts, (∃ u, f t = [u] ∧ g t = [u]) ∨ p.Interchangeable (f t) (g t)) :
    p.renderAfter previous? (ts.flatMap f) = p.renderAfter previous? (ts.flatMap g) := by
  induction ts generalizing previous? with
  | nil => rfl
  | cons t ts ih =>
    rw [List.forall_mem_cons] at h
    rw [List.flatMap_cons, List.flatMap_cons]
    rcases h.1 with ⟨u, hf, hg⟩ | hfg
    · have hend : Place.endsLine ⟨previous?, u, (ts.flatMap f).head?⟩
          = Place.endsLine ⟨previous?, u, (ts.flatMap g).head?⟩ := p.endsLine_flatMap h.2
      rw [hf, hg, List.singleton_append, List.singleton_append, renderAfter_cons, renderAfter_cons,
        ih h.2, p.renderPlace_congr (by rfl) hend]
    · rw [p.renderAfter_append hfg.ne_nil hfg.seamless,
        p.renderAfter_append hfg.ne_nil' hfg.seamless', hfg.same, ih h.2]

end Preview

end MarkdownPreview
