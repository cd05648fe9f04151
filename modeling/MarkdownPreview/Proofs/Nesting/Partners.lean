import Mathlib.Data.List.Nodup
import Mathlib.Data.List.Perm.Subperm
import MarkdownPreview.Proofs.Nesting.Bracket
import MarkdownPreview.Token.Pairing

/-!
# Taking tokens out of a nested level

Tokens may go from a level if partners go together and no token stays that has lost its partner.
Then what stays is properly nested (`balanced_filterPlaces`). The level need not be nested to begin
with: it may be a stretch of a nested one, where closing tokens at the start answer nothing and
opening ones at the end wait for ever (`Readable`). That covers the two ways in which the comment
rule takes tokens out: those of a range that can go (`balanced_removeWithin`), and those that have
lost their partners (`balanced_keepPaired`).

`pairsFrom` names tokens by their places and tells which are partners; `loneFrom` tells in the same
way which have none.
-/

set_option autoImplicit false

namespace MarkdownPreview

/-! ## Stretches of nested levels -/

/-- A word in which every bracket that closes something closes what waits last. One that closes
while nothing waits is passed over, and brackets may be left open. -/
def Readable : List Element → List (Bracket Element) → Prop
  | _, [] => True
  | waiting, .opening e :: w => Readable (e :: waiting) w
  | e :: waiting, .closing e' :: w => e' = e ∧ Readable waiting w
  | [], .closing _ :: w => Readable [] w
  | waiting, .plain :: w => Readable waiting w

theorem readable_of_waitingAfter {waiting waiting' : List Element} {w w' : List (Bracket Element)}
    (h : waitingAfter waiting (w ++ w') = some waiting') : Readable waiting w := by
  induction w generalizing waiting with
  | nil => trivial
  | cons b w ih =>
    cases b with
    | opening e =>
      have h' : waitingAfter (e :: waiting) (w ++ w') = some waiting' := h
      exact ih h'
    | plain =>
      rw [List.cons_append, waitingAfter_plain] at h
      cases waiting <;> exact ih h
    | closing e' =>
      cases waiting with
      | nil => cases h
      | cons e waiting =>
        rw [List.cons_append, waitingAfter_closing] at h
        split at h
        · rename_i he
          exact ⟨he, ih h⟩
        · cases h

/-- Less may wait than did. -/
theorem Readable.forget (waiting : List Element) {below : List Element}
    {w : List (Bracket Element)} (h : Readable (waiting ++ below) w) : Readable waiting w := by
  induction w generalizing waiting below with
  | nil => trivial
  | cons b w ih =>
    cases b with
    | opening e => exact ih (e :: waiting) h
    | plain =>
      cases waiting with
      | nil => cases below <;> exact ih [] h
      | cons e waiting => exact ih (e :: waiting) h
    | closing e' =>
      cases waiting with
      | cons e waiting => exact ⟨h.1, ih waiting h.2⟩
      | nil =>
        cases below with
        | nil => exact h
        | cons e below => exact ih [] h.2

/-- Any stretch of a balanced word is readable. -/
theorem Balanced.readable {u w v : List (Bracket Element)} (h : Balanced (u ++ (w ++ v))) :
    Readable [] w := by
  rw [Balanced, waitingAfter_append] at h
  obtain ⟨waiting, -, hw⟩ := Option.bind_eq_some_iff.mp h
  exact Readable.forget [] (readable_of_waitingAfter hw)

theorem Balanced.readable_self {w : List (Bracket Element)} (h : Balanced w) : Readable [] w := by
  refine Balanced.readable (u := []) (v := []) ?_
  rwa [List.nil_append, List.append_nil]

/-! ## Places -/

/-- The places of the tokens without a partner, counted as `pairsFrom` counts. -/
def loneFrom : (i : Nat) → (unanswered : List Nat) → List Token → List Nat
  | _, unanswered, [] => unanswered
  | i, unanswered, t :: ts =>
    match t.nesting, unanswered with
    | .opening, _ => loneFrom (i + 1) (i :: unanswered) ts
    | .closing, _ :: rest => loneFrom (i + 1) rest ts
    | .closing, [] => i :: loneFrom (i + 1) [] ts
    | .selfClosing, _ => loneFrom (i + 1) unanswered ts

/-- The places of partners. -/
def pairPlaces (ps : List (Nat × Nat)) : List Nat := ps.flatMap fun p => [p.1, p.2]

theorem mem_pairPlaces {ps : List (Nat × Nat)} {a b : Nat} (h : (a, b) ∈ ps) :
    a ∈ pairPlaces ps ∧ b ∈ pairPlaces ps :=
  ⟨List.mem_flatMap.mpr ⟨(a, b), h, by simp⟩, List.mem_flatMap.mpr ⟨(a, b), h, by simp⟩⟩

/-- The places of tokens, with a partner or without, are those that wait and those that lie
ahead, each of them at most once. -/
theorem places_subperm : ∀ (i : Nat) (unanswered : List Nat) (ts : List Token),
    (loneFrom i unanswered ts ++ pairPlaces (pairsFrom i unanswered ts)).Subperm
      (unanswered ++ List.range' i ts.length)
  | i, unanswered, [] => by simp [loneFrom, pairsFrom, pairPlaces, List.Subperm.refl]
  | i, unanswered, t :: ts => by
    rw [List.length_cons, List.range'_succ]
    cases hn : t.nesting with
    | opening =>
      simp only [loneFrom, pairsFrom, hn]
      exact (places_subperm (i + 1) (i :: unanswered) ts).trans List.perm_middle.symm.subperm
    | selfClosing =>
      simp only [loneFrom, pairsFrom, hn]
      exact (places_subperm (i + 1) unanswered ts).trans
        ((List.Sublist.refl unanswered).append (List.sublist_cons_self i _)).subperm
    | closing =>
      cases unanswered with
      | nil =>
        simp only [loneFrom, pairsFrom, hn]
        exact (List.subperm_cons i).mpr (places_subperm (i + 1) [] ts)
      | cons j rest =>
        simp only [loneFrom, pairsFrom, hn]
        -- The two partners stand between the lone places and the others; they go to the front.
        have hfront : (loneFrom (i + 1) rest ts
              ++ j :: i :: pairPlaces (pairsFrom (i + 1) rest ts)).Perm
            (j :: i :: (loneFrom (i + 1) rest ts ++ pairPlaces (pairsFrom (i + 1) rest ts))) :=
          List.perm_middle.trans (List.Perm.cons j List.perm_middle)
        refine hfront.subperm.trans ((List.subperm_cons j).mpr ?_)
        exact ((List.subperm_cons i).mpr (places_subperm (i + 1) rest ts)).trans
          List.perm_middle.symm.subperm

/-- No place comes up twice. -/
theorem places_nodup (ts : List Token) :
    (loneFrom 0 [] ts ++ pairPlaces (pairs ts)).Nodup := by
  obtain ⟨us, hperm, hsub⟩ := places_subperm 0 [] ts
  exact hperm.nodup_iff.mp (hsub.nodup List.nodup_range')

theorem partner?_of_not_mem {ps : List (Nat × Nat)} {i : Nat} (h : i ∉ pairPlaces ps) :
    partner? ps i = none := by
  rw [partner?, List.findSome?_eq_none_iff]
  intro (a, b) hab
  have ha : a ≠ i := fun ha => h (ha ▸ (mem_pairPlaces hab).1)
  have hb : b ≠ i := fun hb => h (hb ▸ (mem_pairPlaces hab).2)
  simp only [ha, hb, if_false]

theorem partner?_of_mem : ∀ {ps : List (Nat × Nat)} {a b : Nat}, (pairPlaces ps).Nodup →
    (a, b) ∈ ps → partner? ps a = some b ∧ partner? ps b = some a
  | (c, d) :: ps, a, b, hn, h => by
    rw [pairPlaces, List.flatMap_cons, List.cons_append, List.cons_append, List.nil_append,
      List.nodup_cons, List.nodup_cons, List.mem_cons, not_or] at hn
    obtain ⟨⟨hcd, hc⟩, hd, hn⟩ := hn
    rw [partner?, partner?, List.findSome?_cons, List.findSome?_cons]
    rcases List.mem_cons.mp h with h | h
    · cases h
      simp [hcd]
    · obtain ⟨ha, hb⟩ := mem_pairPlaces h
      have hca : c ≠ a := fun h => hc (h ▸ ha)
      have hcb : c ≠ b := fun h => hc (h ▸ hb)
      have hda : d ≠ a := fun h => hd (h ▸ ha)
      have hdb : d ≠ b := fun h => hd (h ▸ hb)
      simp only [hca, hcb, hda, hdb, if_false]
      exact partner?_of_mem hn h

/-! ## Keeping some of the tokens -/

/-- A choice among the places from `i` on: partners go or stay together, and what has no partner
goes. -/
structure Chooses (stays : Nat → Bool) (i : Nat) (unanswered : List Nat) (ts : List Token) :
    Prop where
  together : ∀ a b, (a, b) ∈ pairsFrom i unanswered ts → stays a = stays b
  lone : ∀ a ∈ loneFrom i unanswered ts, stays a = false

/-- The brackets of the tokens kept, where the first of the tokens has place `i`. -/
def keptBrackets (keep : Token → Nat → Bool) (i : Nat) (ts : List Token) :
    List (Bracket Element) :=
  ((ts.zipIdx i).filter fun p => keep p.1 p.2).map fun p => p.1.bracket

theorem map_bracket_filterPlaces (keep : Token → Nat → Bool) (ts : List Token) :
    (filterPlaces keep ts).map Token.bracket = keptBrackets keep 0 ts := by
  rw [filterPlaces, List.map_map]
  rfl

theorem keptBrackets_cons (keep : Token → Nat → Bool) (i : Nat) (t : Token) (ts : List Token) :
    keptBrackets keep i (t :: ts)
      = if keep t i then t.bracket :: keptBrackets keep (i + 1) ts
        else keptBrackets keep (i + 1) ts := by
  rw [keptBrackets, List.zipIdx_cons, List.filter_cons]
  split <;> rfl

/-- What a choice leaves is nested: of the elements that wait, together with their places, those
whose tokens have been kept are closed in the end. -/
theorem waitingAfter_keptBrackets {keep : Token → Nat → Bool} {stays : Nat → Bool}
    (hkeep : ∀ t i, t.nesting ≠ .selfClosing → keep t i = stays i) :
    ∀ {ts : List Token} {i : Nat} (waiting : List (Element × Nat)), (∀ t ∈ ts, t.Fits) →
      Readable (waiting.map Prod.fst) (ts.map Token.bracket) →
      Chooses stays i (waiting.map Prod.snd) ts →
        waitingAfter ((waiting.filter fun p => stays p.2).map Prod.fst) (keptBrackets keep i ts)
          = some []
  | [], i, waiting, _, _, hc => by
    have hgone : waiting.filter (fun p => stays p.2) = [] := by
      refine List.filter_eq_nil_iff.mpr ?_
      intro p hp
      rw [hc.lone p.2 (List.mem_map_of_mem hp)]
      exact Bool.false_ne_true
    rw [hgone]
    rfl
  | t :: ts, i, waiting, hf, hr, hc => by
    rw [List.forall_mem_cons] at hf
    rw [List.map_cons] at hr
    rw [keptBrackets_cons]
    rcases hf.1.cases with ⟨e, hn, hb⟩ | ⟨e, hn, hb⟩ | ⟨hn, hb⟩
    · -- An opening token waits from here on, if it stays.
      rw [hb] at hr
      have hc' : Chooses stays (i + 1) (((e, i) :: waiting).map Prod.snd) ts :=
        ⟨by simpa [pairsFrom, hn] using hc.together, by simpa [loneFrom, hn] using hc.lone⟩
      have ih := waitingAfter_keptBrackets hkeep ((e, i) :: waiting) hf.2 hr hc'
      rw [hkeep t i (by simp [hn]), hb]
      cases hs : stays i with
      | true => simpa [hs] using ih
      | false => simpa [hs] using ih
    · rw [hb] at hr
      rw [hkeep t i (by simp [hn]), hb]
      cases waiting with
      | nil =>
        have hs : stays i = false := hc.lone i (by simp [loneFrom, hn])
        have hc' : Chooses stays (i + 1) (([] : List (Element × Nat)).map Prod.snd) ts :=
          ⟨by simpa [pairsFrom, hn] using hc.together,
            fun a ha => hc.lone a (by simpa [loneFrom, hn] using .inr ha)⟩
        have ih := waitingAfter_keptBrackets hkeep [] hf.2 hr hc'
        simpa [hs] using ih
      | cons p rest =>
        obtain ⟨e', j⟩ := p
        obtain ⟨rfl, hr⟩ := hr
        -- The closing token goes or stays with the one it answers.
        have hs : stays j = stays i := hc.together j i (by simp [pairsFrom, hn])
        have hc' : Chooses stays (i + 1) (rest.map Prod.snd) ts :=
          ⟨fun a b h => hc.together a b (by simp [pairsFrom, hn, h]),
            by simpa [loneFrom, hn] using hc.lone⟩
        have ih := waitingAfter_keptBrackets hkeep rest hf.2 hr hc'
        cases hi : stays i with
        | true => simpa [hs, hi] using ih
        | false => simpa [hs, hi] using ih
    · rw [hb] at hr
      have hc' : Chooses stays (i + 1) (waiting.map Prod.snd) ts :=
        ⟨by simpa [pairsFrom, hn] using hc.together, by simpa [loneFrom, hn] using hc.lone⟩
      have hr' : Readable (waiting.map Prod.fst) (ts.map Token.bracket) := by
        cases waiting <;> exact hr
      have ih := waitingAfter_keptBrackets hkeep waiting hf.2 hr' hc'
      rw [hb]
      split
      · rw [waitingAfter_plain]
        exact ih
      · exact ih

/-- **What a choice leaves of a readable level is balanced.** -/
theorem balanced_filterPlaces {keep : Token → Nat → Bool} (stays : Nat → Bool) {ts : List Token}
    (hkeep : ∀ t i, t.nesting ≠ .selfClosing → keep t i = stays i) (hf : ∀ t ∈ ts, t.Fits)
    (hr : Readable [] (ts.map Token.bracket)) (hc : Chooses stays 0 [] ts) :
    Balanced ((filterPlaces keep ts).map Token.bracket) := by
  rw [map_bracket_filterPlaces]
  exact waitingAfter_keptBrackets hkeep [] hf hr hc

/-- Nothing is alone in a balanced level. -/
theorem loneFrom_eq_nil : ∀ {ts : List Token} {i : Nat} (waiting : List (Element × Nat)),
    (∀ t ∈ ts, t.Fits) → waitingAfter (waiting.map Prod.fst) (ts.map Token.bracket) = some [] →
      loneFrom i (waiting.map Prod.snd) ts = []
  | [], i, waiting, _, h => by
    have hw : waiting = [] := List.map_eq_nil_iff.mp (Option.some.inj h)
    rw [hw]
    rfl
  | t :: ts, i, waiting, hf, h => by
    rw [List.forall_mem_cons] at hf
    rw [List.map_cons] at h
    rcases hf.1.cases with ⟨e, hn, hb⟩ | ⟨e, hn, hb⟩ | ⟨hn, hb⟩
    · rw [hb] at h
      simp only [loneFrom, hn]
      exact loneFrom_eq_nil ((e, i) :: waiting) hf.2 h
    · rw [hb] at h
      cases waiting with
      | nil => cases h
      | cons p rest =>
        rw [List.map_cons, waitingAfter_closing] at h
        split at h
        · simp only [List.map_cons, loneFrom, hn]
          exact loneFrom_eq_nil rest hf.2 h
        · cases h
    · rw [hb, waitingAfter_plain] at h
      simp only [loneFrom, hn]
      exact loneFrom_eq_nil waiting hf.2 h

/-- A balanced level stays balanced without those tokens of a range that can go. -/
theorem balanced_removeWithin {ts : List Token} (hf : ∀ t ∈ ts, t.Fits)
    (hb : Balanced (ts.map Token.bracket)) (start stop : Nat) :
    Balanced ((removeWithin start stop ts).map Token.bracket) := by
  have hlone : loneFrom 0 [] ts = [] := loneFrom_eq_nil [] hf hb
  have hnodup : (pairPlaces (pairs ts)).Nodup := (List.nodup_append.mp (places_nodup ts)).2.1
  unfold removeWithin
  refine balanced_filterPlaces (fun i => !(start ≤ i && i < stop &&
    (partner? (pairs ts) i).all fun j => start ≤ j && j < stop)) ?_ hf hb.readable_self ⟨?_, ?_⟩
  · intro t i hn
    have hopen : (t.nesting == .selfClosing) = false := beq_eq_false_iff_ne.mpr hn
    rw [canGo, hopen, Bool.false_or]
    cases partner? (pairs ts) i <;> rfl
  · intro a b hab
    obtain ⟨ha, hb⟩ := partner?_of_mem hnodup hab
    rw [ha, hb, Option.all_some, Option.all_some, Bool.and_comm]
  · intro a ha
    rw [hlone] at ha
    cases ha

/-- A stretch of a balanced level is balanced once all that lost its partner is gone. -/
theorem balanced_keepPaired (before : List Token) {ts : List Token} (after : List Token)
    (hf : ∀ t ∈ ts, t.Fits)
    (hb : Balanced ((before ++ (ts ++ after)).map Token.bracket)) :
    Balanced ((keepPaired ts).map Token.bracket) := by
  have hnodup := places_nodup ts
  rw [List.nodup_append] at hnodup
  rw [List.map_append, List.map_append] at hb
  unfold keepPaired
  refine balanced_filterPlaces (fun i => (partner? (pairs ts) i).isSome) ?_ hf hb.readable
    ⟨?_, ?_⟩
  · intro t i hn
    have hopen : (t.nesting == .selfClosing) = false := beq_eq_false_iff_ne.mpr hn
    rw [hopen, Bool.false_or]
  · intro a b hab
    obtain ⟨ha, hb⟩ := partner?_of_mem hnodup.2.1 hab
    simp only [ha, hb, Option.isSome_some]
  · intro a ha
    rw [partner?_of_not_mem fun h => hnodup.2.2 a ha a h rfl]
    rfl

end MarkdownPreview
