import Mathlib.Data.List.Nodup
import Mathlib.Data.List.Perm.Subperm
import MarkdownPreview.Preview.Basic
import MarkdownPreview.Proofs.Links.Policy
import MarkdownPreview.Proofs.Lowering.Inventory

/-!
# Names that are kept apart

The variants of a slug differ from each other (`variant_injective`), so of one more variant than there
are names taken, one is free. Hence the search for a free variant ends within its bound, and finds the
first one (`exists_firstFree_eq`). Every name that a registry gives out is then new in its whole
history, whatever has been asked of it before (`names_kept_apart`).

The headings of a document bring no ids along, so each gets its id from the registry.
-/

set_option autoImplicit false

namespace MarkdownPreview.Slug

/-! ## The search for a free variant -/

theorem eq_of_toString_eq {i j : Nat} (h : toString i = toString j) : i = j := by
  rw [Nat.toString_eq_ofList_toDigits, Nat.toString_eq_ofList_toDigits, String.ofList_inj] at h
  have hread := congrArg (fun digits => Nat.ofDigitChars 10 digits 0) h
  simpa only [Nat.ofDigitChars_ten_toDigits] using hread

theorem variant_injective (slug : String) : Function.Injective (variant slug) := by
  have hlonger (j : Nat) : slug ≠ variant slug (j + 1) := by
    intro h
    have hlength := congrArg String.length h
    simp only [variant, String.length_append] at hlength
    have hdash : "-".length = 1 := rfl
    omega
  intro i j h
  cases i with
  | zero =>
    cases j with
    | zero => rfl
    | succ j => exact absurd h (hlonger j)
  | succ i =>
    cases j with
    | zero => exact absurd h.symm (hlonger i)
    | succ j =>
      have hchars := congrArg String.toList h
      simp only [variant, String.toList_append] at hchars
      exact eq_of_toString_eq (String.toList_injective (List.append_cancel_left hchars))

/-- As many variants of a slug as are taken, there are names taken at least. -/
theorem le_length_of_variants {taken : List String} {slug : String} {n : Nat}
    (h : ∀ j < n, variant slug j ∈ taken) : n ≤ taken.length := by
  have hnodup : ((List.range n).map (variant slug)).Nodup :=
    List.nodup_range.map (variant_injective slug)
  have hsubset : (List.range n).map (variant slug) ⊆ taken := by
    intro name hname
    obtain ⟨j, hj, rfl⟩ := List.mem_map.mp hname
    exact h j (List.mem_range.mp hj)
  have hlength := (hnodup.subperm hsubset).length_le
  rwa [List.length_map, List.length_range] at hlength

/-- What a search from number `k` on returns: it passes over variants that are taken, and stops at
one that is free or when it has made its steps. -/
theorem firstFree_passes (taken : List String) (slug : String) : ∀ steps k : Nat, ∃ n,
    firstFree taken slug steps k = variant slug n
      ∧ (∀ j, k ≤ j → j < n → variant slug j ∈ taken)
      ∧ (variant slug n ∈ taken → n = k + steps)
  | 0, k => ⟨k, rfl, fun j hlo hhi => absurd hhi (Nat.not_lt.mpr hlo), fun _ => rfl⟩
  | steps + 1, k => by
    rw [firstFree]
    split
    · rename_i hk
      obtain ⟨n, hn, hpassed, hstop⟩ := firstFree_passes taken slug steps (k + 1)
      refine ⟨n, hn, fun j hlo hhi => ?_, fun h => by have := hstop h; omega⟩
      obtain rfl | hlt := Nat.eq_or_lt_of_le hlo
      · exact List.contains_iff_mem.mp hk
      · exact hpassed j hlt hhi
    · rename_i hk
      exact ⟨k, rfl, fun j hlo hhi => absurd hhi (Nat.not_lt.mpr hlo),
        fun h => absurd (List.contains_iff_mem.mpr h) hk⟩

/-- **The search finds the first variant that is free.** -/
theorem exists_firstFree_eq (taken : List String) (slug : String) : ∃ n,
    firstFree taken slug taken.length 0 = variant slug n ∧ variant slug n ∉ taken
      ∧ ∀ j < n, variant slug j ∈ taken := by
  obtain ⟨n, hn, hpassed, hstop⟩ := firstFree_passes taken slug taken.length 0
  have htaken : ∀ j < n, variant slug j ∈ taken := fun j => hpassed j (Nat.zero_le j)
  refine ⟨n, hn, fun hmem => ?_, htaken⟩
  -- Otherwise one variant more would be taken than there are names.
  have hn' := hstop hmem
  have hle := le_length_of_variants (n := n + 1) fun j hj =>
    (Nat.lt_succ_iff_lt_or_eq.mp hj).elim (htaken j) fun h => h ▸ hmem
  omega

/-! ## The history of a registry -/

/-- What can be asked of a registry. -/
inductive Call where
  | unique (slug : String)
  | reserve (name : String)
  deriving Repr, DecidableEq

namespace Registry

/-- The name that a call takes: the one given out, or the one brought along. -/
def nameOf (r : Registry) : Call → String
  | .unique slug => (r.unique slug).1
  | .reserve name => name

/-- The registry after a call. -/
def call (r : Registry) : Call → Registry
  | .unique slug => (r.unique slug).2
  | .reserve name => r.reserve name

/-- The registry after some calls, from the first to the last. -/
def callAll (r : Registry) (calls : List Call) : Registry := calls.foldl call r

/-- The names that calls take, from the first to the last. -/
def namesOf (r : Registry) : List Call → List String
  | [] => []
  | c :: calls => r.nameOf c :: namesOf (r.call c) calls

theorem taken_call (r : Registry) (c : Call) : (r.call c).taken = r.nameOf c :: r.taken := by
  cases c <;> rfl

/-- What is taken are the names that calls have taken, and those taken before. -/
theorem taken_callAll (r : Registry) (calls : List Call) :
    (r.callAll calls).taken = (r.namesOf calls).reverse ++ r.taken := by
  induction calls generalizing r with
  | nil => rfl
  | cons c calls ih =>
    have hrest : (r.callAll (c :: calls)).taken = ((r.call c).callAll calls).taken := rfl
    rw [hrest, ih, taken_call, namesOf, List.reverse_cons, List.append_assoc, List.singleton_append]

theorem mem_taken_callAll {calls : List Call} {name : String} :
    name ∈ (callAll {} calls).taken ↔ name ∈ namesOf {} calls := by
  rw [taken_callAll, List.append_nil, List.mem_reverse]

end Registry

end MarkdownPreview.Slug

namespace MarkdownPreview.Anchor

open Slug

variable {s : Settings}

/-! ## The ids of headings -/

/-- The id of each heading, if it has one. -/
def headingIds (ts : List Token) : List (Option String) :=
  (ts.filter fun t => t.kind == .opening .heading).map fun t => t.attrs.get? "id"

theorem headingIds_cons_of_ne {t : Token} (h : t.kind ≠ .opening .heading) (ts : List Token) :
    headingIds (t :: ts) = headingIds ts := by
  rw [headingIds, List.filter_cons_of_neg (by simpa using h), headingIds]

theorem headingIds_cons {t : Token} (h : t.kind = .opening .heading) (ts : List Token) :
    headingIds (t :: ts) = t.attrs.get? "id" :: headingIds ts := by
  rw [headingIds, List.filter_cons_of_pos (by simpa using h), List.map_cons, headingIds]

theorem kind_withId (s : Settings) (t : Token) (id : String) : (withId s t id).kind = t.kind := by
  unfold withId
  split <;> rfl

theorem get?_withId (s : Settings) (t : Token) (id : String) :
    (withId s t id).attrs.get? "id" = some id := by
  have hid : (t.setAttr "id" id).attrs.get? "id" = some id := Attrs.get?_set_self "id" id t.attrs
  unfold withId
  split
  · rw [Token.setAttr, Attrs.get?_set_of_ne (by decide), hid]
  · exact hid

/-- **Ids that are given out are kept apart**, from each other and from the names taken before. -/
theorem headingIds_addAll {ts : List Token}
    (h : ∀ t ∈ ts, t.kind = .opening .heading →
      isSelected s t = true ∧ t.attrs.get? "id" = none) (taken : Registry) :
    ∃ ids : List String, headingIds (addAll s ts taken).1 = ids.map some ∧ ids.Nodup
      ∧ ∀ id ∈ ids, id ∉ taken.taken := by
  induction ts generalizing taken with
  | nil => exact ⟨[], rfl, List.nodup_nil, List.forall_mem_nil _⟩
  | cons t ts ih =>
    rw [List.forall_mem_cons] at h
    by_cases hk : t.kind = .opening .heading
    · obtain ⟨hselected, hnone⟩ := h.1 hk
      rw [addAll, if_pos hselected, hnone]
      dsimp only
      generalize s.slug (title _) = slug
      obtain ⟨n, hn, hfree, -⟩ := exists_firstFree_eq taken.taken slug
      have hname : (taken.unique slug).1 ∉ taken.taken := by
        rwa [Registry.unique, hn]
      obtain ⟨ids, hids, hnodup, hnew⟩ := ih h.2 (taken.unique slug).2
      have htaken : (taken.unique slug).2.taken = (taken.unique slug).1 :: taken.taken := rfl
      refine ⟨(taken.unique slug).1 :: ids, ?_, ?_, ?_⟩
      · rw [headingIds_cons (by rw [kind_withId, hk]), get?_withId, hids, List.map_cons]
      · rw [htaken] at hnew
        exact List.nodup_cons.mpr ⟨fun hmem => hnew _ hmem List.mem_cons_self, hnodup⟩
      · refine List.forall_mem_cons.mpr ⟨hname, fun id hid hmem => hnew id hid ?_⟩
        rw [htaken]
        exact List.mem_cons_of_mem _ hmem
    · have hselected : isSelected s t = false := by simp [isSelected, hk]
      rw [addAll, if_neg (by simp [hselected])]
      dsimp only
      rw [headingIds_cons_of_ne hk]
      exact ih h.2 taken

end MarkdownPreview.Anchor

namespace MarkdownPreview

open Slug

/-- A heading of a document is of a level that gets an anchor, and brings no id along. -/
theorem Document.headings_bare (d : Document) (acceptance : Markdown.Acceptance)
    (superscript : Bool) : ∀ t ∈ d.tokens acceptance superscript, t.kind = .opening .heading →
      Anchor.isSelected Rule.anchors t = true ∧ t.attrs.get? "id" = none := by
  intro t ht hk
  have hflow := Markdown.flow_tokens d.text acceptance superscript d.tree.all_true
  obtain hblock | ⟨content, us, rfl, -⟩ := hflow.cases_of_mem ht
  · cases hblock with
    | @opening e tag attrs markup hidden htag hattrs =>
      obtain rfl : e = .heading := by cases hk; rfl
      have hlevel : ∀ p ∈ Markdown.blockTags, p.1 = Element.heading → 1 ≤ Anchor.levelOf p.2 := by
        decide
      have hselected : 1 ≤ Anchor.levelOf tag := hlevel _ htag rfl
      refine ⟨Bool.and_eq_true_iff.mpr ⟨rfl, decide_eq_true hselected⟩, ?_⟩
      refine List.lookup_eq_none_iff.mpr fun a ha => ?_
      obtain h | h := hattrs a ha
      · simp [h]
      · simp [h]
    | code _ _ _ hcode => obtain rfl | rfl := hcode <;> cases hk
    | closing | rule | html => cases hk
  · cases hk

/-- **Names are kept apart.** Whatever has been asked of a registry before, a slug gets its first
variant that no call has taken: the slug itself, or the slug with the least number that is free. So
the ids that a document's headings get all differ. -/
theorem names_kept_apart :
    (∀ (calls : List Call) (slug : String),
      let taken := Registry.namesOf {} calls
      ∃ n, ((Registry.callAll {} calls).unique slug).1 = variant slug n ∧ variant slug n ∉ taken
        ∧ ∀ j < n, variant slug j ∈ taken)
    ∧ ∀ (d : Document) (acceptance : Markdown.Acceptance) (superscript : Bool) (c : Conditions),
      ∃ ids : List String, Anchor.headingIds
          (Rule.run c .headings ⟨d.tokens acceptance superscript, {}⟩).tokens = ids.map some
        ∧ ids.Nodup := by
  refine ⟨fun calls slug => ?_, fun d acceptance superscript c => ?_⟩
  · obtain ⟨n, hn, hfree, htaken⟩ := exists_firstFree_eq (Registry.callAll {} calls).taken slug
    simp only [Registry.mem_taken_callAll] at hfree htaken
    exact ⟨n, hn, hfree, htaken⟩
  · obtain ⟨ids, hids, hnodup, -⟩ :=
      Anchor.headingIds_addAll (d.headings_bare acceptance superscript) {}
    exact ⟨ids, hids, hnodup⟩

end MarkdownPreview
