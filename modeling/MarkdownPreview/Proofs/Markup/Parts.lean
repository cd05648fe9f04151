import MarkdownPreview.Proofs.Markup.Stock

/-!
# What is written for which token

The HTML of a document is written in parts, one for each token that is written (`Renderer.parts`):
those of the document, with the children of an `inline` token in its place. The parts say where in
the output something was written for a token, and what came before it.
-/

set_option autoImplicit false

namespace MarkdownPreview.Html

/-- The parts that are written at a place of the top level. -/
def Renderer.partsAt (r : Renderer) (p : Place) : List (Token × String) :=
  if p.token.kind = .inline then (places p.token.inner).map fun q => (q.token, r.renderPlace q)
  else [(p.token, r.renderPlace p)]

/-- The tokens that are written, each with what is written for it. -/
def Renderer.parts (r : Renderer) (ts : List Token) : List (Token × String) :=
  (places ts).flatMap r.partsAt

variable {r : Renderer} {ts : List Token} {t : Token} {html : String}

/-- What is written for a place, put together. -/
theorem join_partsAt (r : Renderer) (p : Place) : String.join ((r.partsAt p).map Prod.snd)
    = if p.token.kind = .inline then r.renderRun p.token.inner else r.renderPlace p := by
  unfold Renderer.partsAt
  split
  · rw [List.map_map]
    rfl
  · simp

/-- **The output is its parts**, one after the other. -/
theorem render_eq_parts (r : Renderer) (ts : List Token) :
    r.render ts = String.join ((r.parts ts).map Prod.snd) := by
  rw [Renderer.render, Renderer.parts]
  induction places ts with
  | nil => rfl
  | cons p ps ih =>
    rw [List.map_cons, String.join_cons, List.flatMap_cons, List.map_append, String.join_append, ih,
      join_partsAt]

/-! ## Places next to each other -/

/-- What a place takes for its neighbours are the tokens of the places next to it. -/
theorem placesAfter_split {previous? : Option Token} {ps qs : List Place} {p : Place}
    (h : placesAfter previous? ts = ps ++ p :: qs) :
    p.previous? = (ps.getLast?.map Place.token).or previous?
      ∧ ∀ q ∈ ps.getLast?, q.next? = some p.token := by
  induction ps generalizing previous? ts with
  | nil =>
    cases ts with
    | nil => cases h
    | cons t ts =>
      obtain ⟨rfl, -⟩ := List.cons.inj h
      exact ⟨rfl, nofun⟩
  | cons q ps ih =>
    cases ts with
    | nil => cases h
    | cons t ts =>
      rw [placesAfter, List.cons_append, List.cons.injEq] at h
      obtain ⟨rfl, h⟩ := h
      obtain ⟨hprevious, hnext⟩ := ih h
      cases ps with
      | nil =>
        cases ts with
        | nil => cases h
        | cons u ts =>
          obtain ⟨rfl, -⟩ := List.cons.inj h
          refine ⟨rfl, fun q hq => ?_⟩
          cases hq
          rfl
      | cons q' ps =>
        rw [List.getLast?_cons_cons]
        refine ⟨?_, hnext⟩
        rw [hprevious, List.getLast?_eq_some_getLast (List.cons_ne_nil q' ps)]
        rfl

/-- A place where a part is written, or whose token holds the token it is written for. -/
theorem mem_partsAt {p : Place} (h : (t, html) ∈ r.partsAt p) :
    r.partsAt p = [(t, html)] ∧ t.kind ≠ .inline ∧ p.token = t ∧ html = r.renderPlace p
      ∨ p.token.kind = .inline ∧ t ∈ p.token.inner := by
  unfold Renderer.partsAt at h ⊢
  split at h
  · rename_i hk
    obtain ⟨q, hq, heq⟩ := List.mem_map.mp h
    obtain ⟨rfl, -⟩ := Prod.mk.inj heq
    exact .inr ⟨hk, mem_of_mem_places hq⟩
  · rename_i hk
    obtain ⟨rfl, rfl⟩ := Prod.mk.inj (List.mem_singleton.mp h)
    exact .inl ⟨if_neg hk, hk, rfl, rfl⟩

theorem flatMap_partsAt_split {ps : List Place} {before after : List (Token × String)}
    (h : ps.flatMap r.partsAt = before ++ (t, html) :: after) :
    t.kind ≠ .inline ∧ (∃ ps₁ p ps₂, ps = ps₁ ++ p :: ps₂ ∧ p.token = t ∧ html = r.renderPlace p
        ∧ before = ps₁.flatMap r.partsAt)
      ∨ ∃ p ∈ ps, p.token.kind = .inline ∧ t ∈ p.token.inner := by
  induction ps generalizing before with
  | nil => simp at h
  | cons p ps ih =>
    -- The part is written at one of the other places.
    have hrest (mid : List (Token × String)) (hbefore : before = r.partsAt p ++ mid)
        (hmid : ps.flatMap r.partsAt = mid ++ (t, html) :: after) :
        t.kind ≠ .inline ∧ (∃ ps₁ p' ps₂, p :: ps = ps₁ ++ p' :: ps₂ ∧ p'.token = t
            ∧ html = r.renderPlace p' ∧ before = ps₁.flatMap r.partsAt)
          ∨ ∃ p' ∈ p :: ps, p'.token.kind = .inline ∧ t ∈ p'.token.inner := by
      rcases ih hmid with ⟨hk, ps₁, p', ps₂, rfl, ht, hhtml, rfl⟩ | ⟨p', hp', hin⟩
      · exact .inl ⟨hk, p :: ps₁, p', ps₂, rfl, ht, hhtml, hbefore⟩
      · exact .inr ⟨p', List.mem_cons_of_mem p hp', hin⟩
    rw [List.flatMap_cons] at h
    rcases List.append_eq_append_iff.mp h with ⟨mid, hbefore, hmid⟩ | ⟨mid, hp, hmid⟩
    · exact hrest mid hbefore hmid
    · cases mid with
      | nil =>
        rw [List.append_nil] at hp
        exact hrest [] (by rw [hp, List.append_nil]) hmid.symm
      | cons x mid =>
        obtain ⟨rfl, -⟩ := List.cons.inj hmid
        rcases mem_partsAt (hp ▸ List.mem_append_right before List.mem_cons_self) with
          ⟨hone, hk, ht, hhtml⟩ | hin
        · have hnil : before = [] := by
            rw [hone, eq_comm, List.append_eq_singleton_iff] at hp
            rcases hp with ⟨hnil, -⟩ | ⟨-, hcons⟩
            · exact hnil
            · cases hcons
          exact .inl ⟨hk, [], p, ps, rfl, ht, hhtml, hnil⟩
        · exact .inr ⟨p, List.mem_cons_self, hin⟩

/-- **A part is written at a place of the top level, or for a token of running text**; what comes
before it in the first case is written at the places before. -/
theorem parts_split {before after : List (Token × String)}
    (h : r.parts ts = before ++ (t, html) :: after) :
    t.kind ≠ .inline ∧ (∃ ps p qs, places ts = ps ++ p :: qs ∧ p.token = t
        ∧ html = r.renderPlace p ∧ before = ps.flatMap r.partsAt)
      ∨ ∃ u ∈ ts, u.kind = .inline ∧ t ∈ u.inner := by
  rcases flatMap_partsAt_split h with hplace | ⟨p, hp, hin⟩
  · exact .inl hplace
  · exact .inr ⟨p.token, mem_of_mem_places hp, hin⟩

end MarkdownPreview.Html
