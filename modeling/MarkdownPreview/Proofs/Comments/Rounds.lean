import MarkdownPreview.Proofs.Checked.Within
import MarkdownPreview.Proofs.Nesting.Answers
import MarkdownPreview.Proofs.Nesting.Rules

/-!
# Comments from one text of a block to a later one

Such comments are taken out in rounds. A round looks for the first text that leaves a comment open and
for the first text behind it in which one ends, cuts the two, and takes out what can go between them
(`Round`). Cutting a text may glue what is left into a new mark, or into a reference that is read as a
bracket, so the same text may open the next round too.

Still the rounds come to an end: each of them takes characters with it. What they leave is `ClosedUp`:
no text that leaves a comment open stands before one in which a comment ends, partners have gone
together, and the tokens before the first such text and behind the last such end are those that were
there. The loop with all its places checked ends there as well (`closeUp_settles`).
-/

set_option autoImplicit false

namespace MarkdownPreview.Comment

open Text

variable {parent? : Option Kind} {ts us front back : List Token} {i j : Nat} {t u : Token}
  {head tail : String}

/-! ## One round -/

/-- The text `t` at `i` is the first one that leaves a comment open, and `head` is what stands before
the comment. -/
structure FirstOpening (ts : List Token) (i : Nat) (t : Token) (head : String) : Prop where
  here : ts[i]? = some t
  text : t.kind = .text
  leaves_open : beforeDangling? (readable t) = some head
  first : ∀ k v, k < i → ts[k]? = some v → opensComment v = false

/-- The text `u` at `j` is the first one behind `i` in which a comment ends, and `tail` is what follows
the first end of a comment in it. -/
structure FirstClosing (ts : List Token) (i j : Nat) (u : Token) (tail : String) : Prop where
  behind : i < j
  here : ts[j]? = some u
  text : u.kind = .text
  ends : afterEnd? (readable u) = some tail
  first : ∀ k v, i < k → k < j → ts[k]? = some v → closesComment v = false

/-- A level in which the texts at `i` and `j` have been cut. -/
def cutTexts (ts : List Token) (i : Nat) (t : Token) (head : String) (j : Nat) (u : Token)
    (tail : String) : List Token :=
  (ts.set i { t with content := head }).set j { u with content := tail }

/-- One round: both texts are cut, and of what stands between them everything goes that is
self-contained, has no partner, or has its partner there too. -/
def Round (ts us : List Token) : Prop :=
  ∃ i t head j u tail, FirstOpening ts i t head ∧ FirstClosing ts i j u tail
    ∧ us = filterPlaces (fun _ k => !decide (Goes ts (i + 1) j k)) (cutTexts ts i t head j u tail)

theorem opensComment_iff :
    opensComment t = true ↔ t.kind = .text ∧ ∃ head, beforeDangling? (readable t) = some head := by
  rw [opensComment, Bool.and_eq_true, beq_iff_eq, isDangling, Option.isSome_iff_exists]

theorem closesComment_iff :
    closesComment t = true ↔ t.kind = .text ∧ ∃ tail, afterEnd? (readable t) = some tail := by
  rw [closesComment, Bool.and_eq_true, beq_iff_eq, ← Option.isSome_iff_exists, afterEnd?,
    Option.isSome_map, hasEnd]

/-- No place before the one found passes. -/
theorem placeFrom?_first {p : Token → Bool} {start : Nat} (h : placeFrom? p start ts = some i) {k : Nat}
    {v : Token} (hstart : start ≤ k) (hlt : k < i) (hv : ts[k]? = some v) : p v = false := by
  obtain ⟨n, hn, rfl⟩ := Option.map_eq_some_iff.mp h
  obtain ⟨hbound, -, hfirst⟩ := List.findIdx?_eq_some_iff_getElem.mp hn
  have hdrop : (ts.drop start)[k - start]? = some v := by
    rwa [List.getElem?_drop, Nat.add_sub_cancel' hstart]
  obtain ⟨hk, rfl⟩ := List.getElem?_eq_some_iff.mp hdrop
  exact Bool.eq_false_iff.mpr (hfirst (k - start) (by omega))

/-- The place found is the first one that passes. -/
theorem placeFrom?_eq_some_iff {p : Token → Bool} {start : Nat} :
    placeFrom? p start ts = some i ↔ start ≤ i ∧ (∃ t, ts[i]? = some t ∧ p t = true)
      ∧ ∀ k v, start ≤ k → k < i → ts[k]? = some v → p v = false := by
  constructor
  · intro h
    obtain ⟨t, ht, hp, hi⟩ := placeFrom?_some h
    exact ⟨hi, ⟨t, ht, hp⟩, fun k v => placeFrom?_first h⟩
  · rintro ⟨hi, ⟨t, ht, hp⟩, hfirst⟩
    cases h : placeFrom? p start ts with
    | none => exact absurd hp (Bool.eq_false_iff.mp (placeFrom?_eq_none_iff.mp h i t hi ht))
    | some n =>
      obtain ⟨v, hv, hpv, hn⟩ := placeFrom?_some h
      have hle : i ≤ n := Nat.le_of_not_lt fun hlt =>
        absurd hpv (Bool.eq_false_iff.mp (hfirst n v hn hlt hv))
      have hge : n ≤ i := Nat.le_of_not_lt fun hlt =>
        absurd hp (Bool.eq_false_iff.mp (placeFrom?_first h hi hlt ht))
      rw [Nat.le_antisymm hge hle]

theorem firstOpening_iff : (∃ t head, FirstOpening ts i t head)
    ↔ placeFrom? opensComment 0 ts = some i := by
  rw [placeFrom?_eq_some_iff]
  constructor
  · rintro ⟨t, head, ht, hk, hopen, hfirst⟩
    exact ⟨Nat.zero_le i, ⟨t, ht, opensComment_iff.mpr ⟨hk, head, hopen⟩⟩, fun k v _ => hfirst k v⟩
  · rintro ⟨-, ⟨t, ht, hp⟩, hfirst⟩
    obtain ⟨hk, head, hopen⟩ := opensComment_iff.mp hp
    exact ⟨t, head, ht, hk, hopen, fun k v => hfirst k v (Nat.zero_le k)⟩

theorem firstClosing_iff : (∃ u tail, FirstClosing ts i j u tail)
    ↔ placeFrom? closesComment (i + 1) ts = some j := by
  rw [placeFrom?_eq_some_iff]
  constructor
  · rintro ⟨u, tail, hij, hu, hk, hends, hfirst⟩
    exact ⟨hij, ⟨u, hu, closesComment_iff.mpr ⟨hk, tail, hends⟩⟩, hfirst⟩
  · rintro ⟨hij, ⟨u, hu, hp⟩, hfirst⟩
    obtain ⟨hk, tail, hends⟩ := closesComment_iff.mp hp
    exact ⟨u, tail, hij, hu, hk, hends, hfirst⟩

/-- Which tokens can go is told by the nestings of the level alone. -/
theorem removeWithin_eq (h : us.map Token.nesting = ts.map Token.nesting) (start stop : Nat) :
    removeWithin start stop us = filterPlaces (fun _ k => !decide (Goes ts start stop k)) us := by
  have hpairs : pairs us = pairs ts := pairsFrom_congr h
  rw [removeWithin, hpairs, ← filterPlacesFrom_zero, ← filterPlacesFrom_zero]
  refine filterPlacesFrom_congr fun k v hv => ?_
  rw [Nat.zero_add, Bool.not_inj_iff, Bool.eq_iff_iff, decide_eq_true_iff]
  apply canGo_iff
  rw [← List.getElem?_map, ← h, List.getElem?_map, hv, Option.map_some]

theorem FirstOpening.cut_eq (hi : FirstOpening ts i t head) (hj : FirstClosing ts i j u tail) :
    (ts.modify i fun t => { t with content := headOf (readable t) }).modify j
      (fun t => { t with content := tailOf (readable t) }) = cutTexts ts i t head j u tail := by
  have hhead : headOf (readable t) = head := by rw [headOf, hi.leaves_open, Option.getD_some]
  have htail : tailOf (readable u) = tail := by rw [tailOf, hj.ends, Option.getD_some]
  have hfirst := set_eq_modify (fun t => { t with content := headOf (readable t) }) hi.here
  have hu : (ts.set i { t with content := head })[j]? = some u := by
    rw [List.getElem?_set_ne (Nat.ne_of_lt hj.behind), hj.here]
  have hsecond := set_eq_modify (fun t => { t with content := tailOf (readable t) }) hu
  rw [hhead] at hfirst
  rw [htail] at hsecond
  rw [← hfirst, ← hsecond, cutTexts]

theorem map_nesting_cutTexts (hi : FirstOpening ts i t head) (hj : FirstClosing ts i j u tail) :
    (cutTexts ts i t head j u tail).map Token.nesting = ts.map Token.nesting := by
  rw [← hi.cut_eq hj, map_modify_eq fun _ => by rfl, map_modify_eq fun _ => by rfl]

theorem removeWithin_cutTexts (hi : FirstOpening ts i t head) (hj : FirstClosing ts i j u tail) :
    removeWithin (i + 1) j (cutTexts ts i t head j u tail)
      = filterPlaces (fun _ k => !decide (Goes ts (i + 1) j k)) (cutTexts ts i t head j u tail) :=
  removeWithin_eq (map_nesting_cutTexts hi hj) (i + 1) j

/-- **What is done in one go is a round**, and there is a round only if it is done. -/
theorem closeUpOnce?_eq_some_iff : closeUpOnce? ts = some us ↔ Round ts us := by
  simp only [closeUpOnce?, Option.bind_eq_bind, Option.bind_eq_some_iff, Option.pure_def,
    Option.some.injEq]
  constructor
  · rintro ⟨i, hi, j, hj, rfl⟩
    obtain ⟨t, head, hi⟩ := firstOpening_iff.mpr hi
    obtain ⟨u, tail, hj⟩ := firstClosing_iff.mpr hj
    refine ⟨i, t, head, j, u, tail, hi, hj, ?_⟩
    rw [hi.cut_eq hj, removeWithin_cutTexts hi hj]
  · rintro ⟨i, t, head, j, u, tail, hi, hj, rfl⟩
    refine ⟨i, firstOpening_iff.mp ⟨t, head, hi⟩, j, firstClosing_iff.mp ⟨u, tail, hj⟩, ?_⟩
    rw [hi.cut_eq hj, removeWithin_cutTexts hi hj]

/-! ## What a round leaves as it is -/

theorem not_goes_before {start stop k : Nat} (h : k < start) : ¬ Goes ts start stop k :=
  fun hgoes => absurd hgoes.1.1 (Nat.not_le_of_lt h)

theorem not_goes_behind {start stop k : Nat} (h : stop ≤ k) : ¬ Goes ts start stop k :=
  fun hgoes => absurd hgoes.1.2 (Nat.not_lt_of_le h)

/-- What stands before the first text that leaves a comment open stays, and stays in front. -/
theorem Round.prefix_of (h : Round (front ++ back) us) (hfront : ∀ t ∈ front, opensComment t = false) :
    front <+: us := by
  obtain ⟨i, t, head, j, u, tail, hi, hj, rfl⟩ := h
  have hle : front.length ≤ i := by
    refine Nat.le_of_not_lt fun hlt => ?_
    have hmem : t ∈ front := by
      have hhere := hi.here
      rw [List.getElem?_append_left hlt] at hhere
      exact List.mem_of_getElem? hhere
    have hopen : opensComment t = true := opensComment_iff.mpr ⟨hi.text, head, hi.leaves_open⟩
    exact absurd hopen (Bool.eq_false_iff.mp (hfront t hmem))
  have hcut : cutTexts (front ++ back) i t head j u tail
      = front ++ cutTexts back (i - front.length) t head (j - front.length) u tail := by
    have hij := hj.behind
    rw [cutTexts, List.set_append_right _ _ hle, List.set_append_right _ _ (by omega), cutTexts]
  rw [hcut, ← filterPlacesFrom_zero, filterPlacesFrom_append, filterPlacesFrom_eq_self]
  · exact List.prefix_append _ _
  · intro k v hv
    have hk := (List.getElem?_eq_some_iff.mp hv).1
    have hstays : ¬ Goes (front ++ back) (i + 1) j k := not_goes_before (by omega)
    simpa using hstays

/-- What stands behind the last text in which a comment ends stays, and stays at the end. -/
theorem Round.suffix_of (h : Round (front ++ back) us) (hback : ∀ t ∈ back, closesComment t = false) :
    back <:+ us := by
  obtain ⟨i, t, head, j, u, tail, hi, hj, rfl⟩ := h
  have hlt : j < front.length := by
    refine Nat.lt_of_not_le fun hle => ?_
    have hmem : u ∈ back := by
      have hhere := hj.here
      rw [List.getElem?_append_right hle] at hhere
      exact List.mem_of_getElem? hhere
    have hclose : closesComment u = true := closesComment_iff.mpr ⟨hj.text, tail, hj.ends⟩
    exact absurd hclose (Bool.eq_false_iff.mp (hback u hmem))
  have hcut : cutTexts (front ++ back) i t head j u tail = cutTexts front i t head j u tail ++ back := by
    have hij := hj.behind
    rw [cutTexts, List.set_append_left _ _ (by omega), List.set_append_left _ _ (by simpa using hlt),
      cutTexts]
  rw [hcut, ← filterPlacesFrom_zero, filterPlacesFrom_append]
  have hstays : filterPlacesFrom (fun _ k => !decide (Goes (front ++ back) (i + 1) j k))
      (0 + (cutTexts front i t head j u tail).length) back = back := by
    refine filterPlacesFrom_eq_self fun k v hv => ?_
    have hbehind : j ≤ 0 + (cutTexts front i t head j u tail).length + k := by
      rw [cutTexts, List.length_set, List.length_set]
      omega
    have hstays : ¬ Goes (front ++ back) (i + 1) j (0 + (cutTexts front i t head j u tail).length + k) :=
      not_goes_behind hbehind
    simpa using hstays
  rw [hstays]
  exact List.suffix_append _ _

theorem paired_cut (cut : Token → String) (hk : ts[i]?.map Token.kind = some .text)
    (h : Paired parent? ts) : Paired parent? (ts.modify i fun t => { t with content := cut t }) :=
  Paired.lasting.edit
    (EditedTo.modify fun t ht => .content t (cut t) (.inl (by simpa [ht] using hk))) h

/-- A nested level stays nested. -/
theorem Round.paired (h : Round ts us) (hp : Paired parent? ts) : Paired parent? us := by
  obtain ⟨i, t, head, j, u, tail, hi, hj, rfl⟩ := h
  have hkind : (ts.modify i fun t => { t with content := headOf (readable t) })[j]?.map Token.kind
      = some .text := by
    rw [map_kind_getElem?_modify fun _ => by rfl, hj.here, Option.map_some, hj.text]
  have hhead : Paired parent? (ts.modify i fun t => { t with content := headOf (readable t) }) :=
    paired_cut _ (by rw [hi.here, Option.map_some, hi.text]) hp
  rw [← removeWithin_cutTexts hi hj, ← hi.cut_eq hj]
  exact Paired.lasting.within (i + 1) j (paired_cut _ hkind hhead)

theorem Round.contentSize_lt (h : Round ts us) : contentSize us < contentSize ts :=
  contentSize_closeUpOnce?_lt (closeUpOnce?_eq_some_iff.mpr h)

/-! ## All rounds -/

/-- No round can be done from a level any more. -/
def IsSettled (ts : List Token) : Prop := ∀ us, ¬ Round ts us

theorem isSettled_iff : IsSettled ts ↔ closeUpOnce? ts = none := by
  rw [Option.eq_none_iff_forall_ne_some]
  exact forall_congr' fun us => not_congr closeUpOnce?_eq_some_iff.symm

/-- In a settled level no comment reaches from a text to a later one. -/
theorem IsSettled.apart (h : IsSettled ts) (hij : i < j) (ht : ts[i]? = some t) (hu : ts[j]? = some u)
    (hopen : opensComment t = true) : closesComment u = false := by
  have hnone := isSettled_iff.mp h
  cases hi : placeFrom? opensComment 0 ts with
  | none => exact absurd hopen (Bool.eq_false_iff.mp (placeFrom?_eq_none_iff.mp hi i t (Nat.zero_le i) ht))
  | some first =>
    cases hj : placeFrom? closesComment (first + 1) ts with
    | some second => simp [closeUpOnce?, hi, hj] at hnone
    | none =>
      -- The first text that leaves a comment open is not behind the one at `i`.
      have hle : first ≤ i := Nat.le_of_not_lt fun hlt =>
        absurd hopen (Bool.eq_false_iff.mp (placeFrom?_first hi (Nat.zero_le i) hlt ht))
      exact placeFrom?_eq_none_iff.mp hj j u (by omega) hu

/-- The rounds come to an end wherever they start. -/
theorem acc_round (ts : List Token) : Acc (fun us ts => Round ts us) ts :=
  (Subrelation.wf Round.contentSize_lt (measure contentSize).wf).apply ts

theorem closeUpIn_reaches : ∀ {steps : Nat} {ts : List Token}, contentSize ts ≤ steps →
    Relation.ReflTransGen Round ts (closeUpIn steps ts) ∧ IsSettled (closeUpIn steps ts) := by
  intro steps
  induction steps with
  | zero =>
    intro ts hsize
    refine ⟨.refl, fun us h => ?_⟩
    have hless := h.contentSize_lt
    rw [closeUpIn] at hless
    omega
  | succ steps ih =>
    intro ts hsize
    rw [closeUpIn]
    cases honce : closeUpOnce? ts with
    | none => exact ⟨.refl, isSettled_iff.mpr honce⟩
    | some us =>
      have hround : Round ts us := closeUpOnce?_eq_some_iff.mp honce
      have hless := hround.contentSize_lt
      have hbound : contentSize us ≤ steps := by omega
      obtain ⟨hreaches, hsettled⟩ := ih hbound
      exact ⟨.head hround hreaches, hsettled⟩

theorem paired_of_rounds (h : Relation.ReflTransGen Round ts us) (hp : Paired parent? ts) :
    Paired parent? us := by
  induction h with
  | refl => exact hp
  | tail _ hround ih => exact hround.paired ih

theorem prefix_of_rounds (h : Relation.ReflTransGen Round ts us) (hfront : front <+: ts)
    (hopen : ∀ t ∈ front, opensComment t = false) : front <+: us := by
  induction h with
  | refl => exact hfront
  | tail _ hround ih =>
    obtain ⟨back, rfl⟩ := ih
    exact hround.prefix_of hopen

theorem suffix_of_rounds (h : Relation.ReflTransGen Round ts us) (hback : back <:+ ts)
    (hclose : ∀ t ∈ back, closesComment t = false) : back <:+ us := by
  induction h with
  | refl => exact hback
  | tail _ hround ih =>
    obtain ⟨front, rfl⟩ := ih
    exact hround.suffix_of hclose

/-- What is left of a level when all rounds are done. -/
structure ClosedUp (ts us : List Token) : Prop where
  reached : Relation.ReflTransGen Round ts us
  settled : IsSettled us
  apart : ∀ (i j : Nat) (t u : Token), i < j → us[i]? = some t → us[j]? = some u →
    opensComment t = true → closesComment u = false
  nested : ∀ parent?, Paired parent? ts → Paired parent? us
  before : ∀ front, front <+: ts → (∀ t ∈ front, opensComment t = false) → front <+: us
  behind : ∀ back, back <:+ ts → (∀ t ∈ back, closesComment t = false) → back <:+ us

theorem closedUp_closeUp (ts : List Token) : ClosedUp ts (closeUp ts) := by
  obtain ⟨hreached, hsettled⟩ := closeUpIn_reaches (le_refl (contentSize ts))
  exact
    { reached := hreached
      settled := hsettled
      apart := fun _ _ _ _ hij ht hu hopen => hsettled.apart hij ht hu hopen
      nested := fun _ hp => paired_of_rounds hreached hp
      before := fun _ hfront hopen => prefix_of_rounds hreached hfront hopen
      behind := fun _ hback hclose => suffix_of_rounds hreached hback hclose }

/-- **Taking comments out between the texts of a block comes to an end**, whatever the texts are. What
the loop does at a time is a round, no round goes on for ever, and the loop ends, with no place missing
on the way, where no round can be done any more. -/
theorem closeUp_settles (ts : List Token) :
    (∀ us, Checked.closeUpFirst? ts = some (some us) ↔ Round ts us)
      ∧ Acc (fun us ts => Round ts us) ts
      ∧ (∃ changed, Checked.closeUp? ts = some (changed, closeUp ts)
          ∧ (changed = true ↔ ∃ us, Round ts us))
      ∧ ClosedUp ts (closeUp ts) := by
  refine ⟨fun us => ?_, acc_round ts, ⟨_, Checked.closeUp?_eq ts, ?_⟩, closedUp_closeUp ts⟩
  · rw [Checked.closeUpFirst?_eq, Option.some.injEq, closeUpOnce?_eq_some_iff]
  · rw [Option.isSome_iff_exists]
    exact exists_congr fun us => closeUpOnce?_eq_some_iff

/-- Two rounds from one text: what the first leaves of it is glued into a reference, and read as a
bracket it opens the second. The emphasis between goes in the first; in the second its opening token
stays, since the one that answers it lies behind. -/
theorem closeUp_settles_glued :
    let em := Token.spanOpening .em "em" "*"
    let em' := Token.spanClosing .em "em" "*"
    let ts := [Token.text "a", .text "b &l<!--c-->t;!-- d <!-- e", em, .text "f", em', .text "g --> h", em,
      .text "i --> j", em', .text "k"]
    let us := [Token.text "a", .text "b ", em, .text " j", em', .text "k"]
    (∃ changed, Checked.closeUp? ts = some (changed, us) ∧ (changed = true ↔ ∃ us, Round ts us))
      ∧ ClosedUp ts us ∧ Paired (some .inline) us := by
  intro em em' ts us
  have hlibrary : closeUp ts = us := by decide +kernel
  obtain ⟨-, -, hloop, hclosed⟩ := closeUp_settles ts
  rw [hlibrary] at hloop hclosed
  exact ⟨hloop, hclosed, hclosed.nested (some .inline) (by decide)⟩

end MarkdownPreview.Comment
