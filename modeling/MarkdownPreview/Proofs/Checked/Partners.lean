import MarkdownPreview.Proofs.Checked.Cursor
import MarkdownPreview.Proofs.Nesting.Partners
import MarkdownPreview.Proofs.Walk.Splice

/-!
# Partners, with every place checked

The partners of a level are kept in a table with one row per token, which is written while the level
is read: every closing token fills its own row and that of the token it answers. Rows are looked up by
the places of tokens. Which tokens of a range can go is found out first, as a list of places; then they
are taken out one after the other, the last one first. So what has been taken out lies behind the
places that are still to be used, and these stay right (`takeOutEach?_eq`). A cursor on the level
stays on its token, or is left in the gap where it was (`spliceOutEach?_eq`).
-/

set_option autoImplicit false

namespace MarkdownPreview

/-! ## Keeping tokens by their places -/

section

variable {keep keep' : Token → Nat → Bool}

/-- The tokens that are kept of those from place `k` on. -/
def filterPlacesFrom (keep : Token → Nat → Bool) (k : Nat) (ts : List Token) : List Token :=
  ((ts.zipIdx k).filter fun (t, i) => keep t i).map Prod.fst

theorem filterPlacesFrom_zero (keep : Token → Nat → Bool) (ts : List Token) :
    filterPlacesFrom keep 0 ts = filterPlaces keep ts := rfl

theorem filterPlacesFrom_cons (keep : Token → Nat → Bool) (k : Nat) (t : Token) (ts : List Token) :
    filterPlacesFrom keep k (t :: ts)
      = if keep t k then t :: filterPlacesFrom keep (k + 1) ts
        else filterPlacesFrom keep (k + 1) ts := by
  rw [filterPlacesFrom, List.zipIdx_cons, List.filter_cons]
  by_cases hkeep : keep t k = true
  · simp [hkeep, filterPlacesFrom]
  · simp [hkeep, filterPlacesFrom]

theorem filterPlacesFrom_append (keep : Token → Nat → Bool) (k : Nat) (ts us : List Token) :
    filterPlacesFrom keep k (ts ++ us)
      = filterPlacesFrom keep k ts ++ filterPlacesFrom keep (k + ts.length) us := by
  simp only [filterPlacesFrom, List.zipIdx_append, List.filter_append, List.map_append]

theorem filterPlacesFrom_congr {k : Nat} {ts : List Token}
    (h : ∀ i t, ts[i]? = some t → keep t (k + i) = keep' t (k + i)) :
    filterPlacesFrom keep k ts = filterPlacesFrom keep' k ts := by
  induction ts generalizing k with
  | nil => rfl
  | cons t ts ih =>
    have hfirst := h 0 t rfl
    have hrest : filterPlacesFrom keep (k + 1) ts = filterPlacesFrom keep' (k + 1) ts := by
      refine ih fun i u hu => ?_
      have hi := h (i + 1) u hu
      rwa [← Nat.add_assoc, Nat.add_right_comm] at hi
    rw [Nat.add_zero] at hfirst
    rw [filterPlacesFrom_cons, filterPlacesFrom_cons, hfirst, hrest]

theorem filterPlacesFrom_eq_self {k : Nat} {ts : List Token}
    (h : ∀ i t, ts[i]? = some t → keep t (k + i) = true) : filterPlacesFrom keep k ts = ts := by
  have hall : filterPlacesFrom keep k ts = filterPlacesFrom (fun _ _ => true) k ts :=
    filterPlacesFrom_congr h
  rw [hall, filterPlacesFrom, List.filter_true, List.zipIdx_map_fst]

theorem filterPlacesFrom_sublist (keep : Token → Nat → Bool) (k : Nat) (ts : List Token) :
    List.Sublist (filterPlacesFrom keep k ts) ts := by
  have hkept : List.Sublist (filterPlacesFrom keep k ts) ((ts.zipIdx k).map Prod.fst) :=
    List.filter_sublist.map Prod.fst
  rwa [List.zipIdx_map_fst] at hkept

end

namespace Checked

/-! ## The table of partners -/

def partnersFrom? : (i : Nat) → (unanswered : List Nat) → (table : List (Option Nat)) →
    List Token → Option (List (Option Nat))
  | _, _, table, [] => some table
  | i, unanswered, table, t :: ts =>
    match t.nesting, unanswered with
    | .opening, _ => partnersFrom? (i + 1) (i :: unanswered) table ts
    | .closing, j :: rest => do
      let table ← put? table j (some i)
      let table ← put? table i (some j)
      partnersFrom? (i + 1) rest table ts
    | .closing, [] => partnersFrom? (i + 1) [] table ts
    | .selfClosing, _ => partnersFrom? (i + 1) unanswered table ts

/-- The partner of each token of a level. -/
def partners? (ts : List Token) : Option (List (Option Nat)) :=
  partnersFrom? 0 [] (List.replicate ts.length none) ts

theorem partner?_cons (a b k : Nat) (ps : List (Nat × Nat)) :
    partner? ((a, b) :: ps) k
      = if a = k then some b else if b = k then some a else partner? ps k := by
  rw [partner?, List.findSome?_cons]
  by_cases ha : a = k
  · simp [ha]
  · by_cases hb : b = k
    · simp [ha, hb]
    · simp [ha, hb, partner?]

/-- The rows of some pairs have been filled. -/
structure Filled (ps : List (Nat × Nat)) (table table' : List (Option Nat)) : Prop where
  length_eq : table'.length = table.length
  row (k : Nat) (hk : k < table.length) : table'[k]? =
    match partner? ps k with
    | some j => some (some j)
    | none => table[k]?

/-- The rows of a table of which two have been filled. -/
theorem getElem?_filled {table : List (Option Nat)} {i j : Nat} (hij : j < i) (hi : i < table.length)
    (a b : Option Nat) (k : Nat) :
    ((table.set j a).set i b)[k]?
      = if j = k then some a else if i = k then some b else table[k]? := by
  by_cases hjk : j = k
  · subst hjk
    rw [if_pos rfl, List.getElem?_set_ne (by omega), List.getElem?_set_self (by omega)]
  · rw [if_neg hjk]
    by_cases hik : i = k
    · subst hik
      rw [if_pos rfl, List.getElem?_set_self (by rwa [List.length_set])]
    · rw [if_neg hik, List.getElem?_set_ne hik, List.getElem?_set_ne hjk]

/-- One more pair, with places that no other pair has. -/
theorem Filled.cons {ps : List (Nat × Nat)} {table table' : List (Option Nat)} {i j : Nat}
    (h : Filled ps ((table.set j (some i)).set i (some j)) table') (hij : j < i)
    (hi : i < table.length) (hpi : partner? ps i = none) (hpj : partner? ps j = none) :
    Filled ((j, i) :: ps) table table' := by
  obtain ⟨hlength, hrow⟩ := h
  rw [List.length_set, List.length_set] at hlength hrow
  refine ⟨hlength, fun k hk => ?_⟩
  rw [hrow k hk, partner?_cons, getElem?_filled hij hi]
  by_cases hjk : j = k
  · subst hjk
    rw [hpj, if_pos rfl, if_pos rfl]
  · by_cases hik : i = k
    · subst hik
      rw [hpi, if_neg hjk, if_neg hjk, if_pos rfl, if_pos rfl]
    · rw [if_neg hjk, if_neg hjk, if_neg hik, if_neg hik]

/-- What holds while the table is written, with `count` tokens to come: the places that wait for an
answer and those to come are all different, and the table has a row for each. -/
structure Ready (i : Nat) (unanswered : List Nat) (count rows : Nat) : Prop where
  nodup : (unanswered ++ List.range' i count).Nodup
  room : i + count ≤ rows
  waiting : ∀ j ∈ unanswered, j < i

namespace Ready

variable {i j count rows : Nat} {unanswered : List Nat}

theorem start (count : Nat) : Ready 0 [] count count where
  nodup := by simpa using List.nodup_range'
  room := by omega
  waiting _ h := nomatch h

/-- An opening token waits for its answer. -/
theorem opening (h : Ready i unanswered (count + 1) rows) :
    Ready (i + 1) (i :: unanswered) count rows where
  nodup := by
    have hnodup := h.nodup
    rw [List.range'_succ] at hnodup
    exact List.perm_middle.nodup_iff.mp hnodup
  room := by
    have hroom := h.room
    omega
  waiting k hk := by
    obtain rfl | hk := List.mem_cons.mp hk
    · exact Nat.lt_succ_self _
    · exact Nat.lt_succ_of_lt (h.waiting k hk)

/-- A token that neither waits nor answers. -/
theorem skip (h : Ready i unanswered (count + 1) rows) : Ready (i + 1) unanswered count rows where
  nodup := (List.nodup_cons.mp h.opening.nodup).2
  room := h.opening.room
  waiting k hk := Nat.lt_succ_of_lt (h.waiting k hk)

/-- A closing token answers the last one that waits. -/
theorem closing (h : Ready i (j :: unanswered) (count + 1) rows) :
    Ready (i + 1) unanswered count rows where
  nodup := (List.nodup_cons.mp h.skip.nodup).2
  room := h.skip.room
  waiting k hk := h.skip.waiting k (List.mem_cons_of_mem _ hk)

/-- The places of a pair do not come up again. -/
theorem not_mem_of_closing (h : Ready i (j :: unanswered) (count + 1) rows) :
    i ∉ unanswered ++ List.range' (i + 1) count ∧ j ∉ unanswered ++ List.range' (i + 1) count :=
  ⟨fun hi => (List.nodup_cons.mp h.opening.nodup).1 (List.mem_cons_of_mem _ hi),
    (List.nodup_cons.mp h.skip.nodup).1⟩

end Ready

/-- A place that does not wait for an answer, and is not to come, is in no pair to come. -/
theorem partner?_pairsFrom_eq_none {i k : Nat} {unanswered : List Nat} {ts : List Token}
    (hk : k ∉ unanswered ++ List.range' i ts.length) :
    partner? (pairsFrom i unanswered ts) k = none := by
  refine partner?_of_not_mem fun hmem => hk ?_
  exact (places_subperm i unanswered ts).subset (List.mem_append_right _ hmem)

theorem partnersFrom?_eq {i : Nat} {unanswered : List Nat} {table : List (Option Nat)}
    {ts : List Token} (h : Ready i unanswered ts.length table.length) :
    ∃ table', partnersFrom? i unanswered table ts = some table'
      ∧ Filled (pairsFrom i unanswered ts) table table' := by
  induction ts generalizing i unanswered table with
  | nil => exact ⟨table, rfl, rfl, fun _ _ => rfl⟩
  | cons t ts ih =>
    rw [List.length_cons] at h
    cases hn : t.nesting with
    | opening =>
      simp only [partnersFrom?, pairsFrom, hn]
      exact ih h.opening
    | selfClosing =>
      simp only [partnersFrom?, pairsFrom, hn]
      exact ih h.skip
    | closing =>
      cases unanswered with
      | nil =>
        simp only [partnersFrom?, pairsFrom, hn]
        exact ih h.skip
      | cons j rest =>
        have hj : j < i := h.waiting j List.mem_cons_self
        have hi : i < table.length := by
          have hroom := h.room
          omega
        have hi' : i < (table.set j (some i)).length := by rwa [List.length_set]
        obtain ⟨hi_new, hj_new⟩ := h.not_mem_of_closing
        have hready : Ready (i + 1) rest ts.length
            ((table.set j (some i)).set i (some j)).length := by
          rw [List.length_set, List.length_set]
          exact h.closing
        obtain ⟨table', htable, hfilled⟩ := ih hready
        refine ⟨table', ?_, ?_⟩
        · simp only [partnersFrom?, hn]
          rw [put?_eq (Nat.lt_trans hj hi), Option.bind_eq_bind, Option.bind_some, put?_eq hi',
            Option.bind_some, htable]
        · simp only [pairsFrom, hn]
          exact hfilled.cons hj hi (partner?_pairsFrom_eq_none hi_new)
            (partner?_pairsFrom_eq_none hj_new)

theorem partners?_eq (ts : List Token) :
    partners? ts = some ((List.range ts.length).map (partner? (pairs ts))) := by
  have hready : Ready 0 [] ts.length (List.replicate ts.length (none : Option Nat)).length := by
    rw [List.length_replicate]
    exact .start ts.length
  obtain ⟨table, htable, hlength, hrow⟩ := partnersFrom?_eq hready
  rw [partners?, htable, Option.some.injEq]
  rw [List.length_replicate] at hlength hrow
  refine List.ext_getElem? fun k => ?_
  by_cases hk : k < ts.length
  · rw [hrow k hk, List.getElem?_map, List.getElem?_range hk, Option.map_some, pairs]
    cases partner? (pairsFrom 0 [] ts) k with
    | some j => rfl
    | none => simp [hk]
  · rw [List.getElem?_eq_none (by omega), List.getElem?_eq_none (by simp; omega)]

/-! ## What has a partner stays -/

def keepPairedFrom? (partner : List (Option Nat)) : (i : Nat) → List Token → Option (List Token)
  | _, [] => some []
  | i, t :: ts => do
    let keep ← if t.nesting = .selfClosing then some true else (partner[i]?).map Option.isSome
    let rest ← keepPairedFrom? partner (i + 1) ts
    return if keep then t :: rest else rest

def keepPaired? (ts : List Token) : Option (List Token) := do
  let partner ← partners? ts
  keepPairedFrom? partner 0 ts

theorem keepPairedFrom?_eq (ps : List (Nat × Nat)) (n : Nat) (ts : List Token) (i : Nat)
    (h : i + ts.length ≤ n) :
    keepPairedFrom? ((List.range n).map (partner? ps)) i ts = some (filterPlacesFrom
      (fun t i => t.nesting == .selfClosing || (partner? ps i).isSome) i ts) := by
  induction ts generalizing i with
  | nil => rfl
  | cons t ts ih =>
    rw [List.length_cons] at h
    have hrow : ((List.range n).map (partner? ps))[i]? = some (partner? ps i) := by
      rw [List.getElem?_map, List.getElem?_range (by omega), Option.map_some]
    rw [keepPairedFrom?, hrow, ih (i + 1) (by omega), filterPlacesFrom_cons]
    by_cases hn : t.nesting = .selfClosing
    · simp [hn]
    · simp [hn]

theorem keepPaired?_eq (ts : List Token) : keepPaired? ts = some (keepPaired ts) := by
  rw [keepPaired?, partners?_eq]
  exact keepPairedFrom?_eq (pairs ts) ts.length ts 0 (by omega)

/-! ## The places of what can go -/

/-- The places that pass a test. -/
def placesIf? (test : Nat → Option Bool) : List Nat → Option (List Nat)
  | [] => some []
  | i :: places => do
    let passes ← test i
    let rest ← placesIf? test places
    return if passes then i :: rest else rest

theorem placesIf?_eq {test : Nat → Option Bool} {p : Nat → Bool} {places : List Nat}
    (h : ∀ i ∈ places, test i = some (p i)) : placesIf? test places = some (places.filter p) := by
  induction places with
  | nil => rfl
  | cons i places ih =>
    rw [List.forall_mem_cons] at h
    rw [placesIf?, h.1, ih h.2, List.filter_cons]
    rfl

/-- The places of a range whose tokens can go, from the first to the last. -/
def removable? (ts : List Token) (start stop : Nat) : Option (List Nat) := do
  let partner ← partners? ts
  let stop := min stop ts.length
  placesIf? (fun i => do
      let t ← ts[i]?
      let p ← partner[i]?
      return t.nesting == .selfClosing || match p with
        | none => true
        | some j => start ≤ j && j < stop)
    (List.range' start (stop - start))

theorem partner?_lt {ts : List Token} {i j : Nat} (h : partner? (pairs ts) i = some j) :
    j < ts.length := by
  obtain ⟨⟨a, b⟩, hab, hj⟩ := List.exists_of_findSome?_eq_some h
  have hplace (k : Nat) (hk : k ∈ pairPlaces (pairs ts)) : k < ts.length := by
    have hmem := (places_subperm 0 [] ts).subset (List.mem_append_right _ hk)
    simpa using hmem
  obtain ⟨ha, hb⟩ := mem_pairPlaces hab
  dsimp only at hj
  by_cases hai : a = i
  · rw [if_pos hai] at hj
    exact Option.some.inj hj ▸ hplace b hb
  · rw [if_neg hai] at hj
    by_cases hbi : b = i
    · rw [if_pos hbi] at hj
      exact Option.some.inj hj ▸ hplace a ha
    · rw [if_neg hbi] at hj
      cases hj

/-- The places of a range whose tokens can go. -/
def doomed (ts : List Token) (start stop : Nat) : List Nat :=
  (List.range' start (min stop ts.length - start)).filter fun i =>
    ts[i]?.any fun t => canGo (pairs ts) start stop t i

theorem pairwise_doomed (ts : List Token) (start stop : Nat) :
    (doomed ts start stop).Pairwise (· < ·) :=
  List.Pairwise.filter _ (List.pairwise_lt_range' 1 Nat.one_pos)

theorem mem_doomed_iff {ts : List Token} {start stop i : Nat} {t : Token} (ht : ts[i]? = some t) :
    i ∈ doomed ts start stop ↔ canGo (pairs ts) start stop t i = true := by
  have hlt := (List.getElem?_eq_some_iff.mp ht).1
  rw [doomed, List.mem_filter, List.mem_range'_1, ht, Option.any_some]
  refine ⟨And.right, fun h => ⟨?_, h⟩⟩
  simp only [canGo, Bool.and_eq_true, decide_eq_true_eq] at h
  omega

theorem contains_doomed {ts : List Token} {start stop i : Nat} {t : Token} (ht : ts[i]? = some t) :
    (doomed ts start stop).contains i = canGo (pairs ts) start stop t i := by
  rw [Bool.eq_iff_iff, List.contains_iff_mem, mem_doomed_iff ht]

theorem lt_of_mem_doomed {ts : List Token} {start stop i : Nat} (h : i ∈ doomed ts start stop) :
    i < ts.length := by
  have hmem := (List.mem_filter.mp h).1
  rw [List.mem_range'_1] at hmem
  omega

/-- **No place of a range that is asked for is missing.** -/
theorem removable?_eq (ts : List Token) (start stop : Nat) :
    removable? ts start stop = some (doomed ts start stop) := by
  rw [removable?, partners?_eq]
  refine placesIf?_eq fun i hi => ?_
  rw [List.mem_range'_1] at hi
  have hlt : i < ts.length := by omega
  have hhi : i < stop := by omega
  rw [List.getElem?_eq_getElem hlt, List.getElem?_map, List.getElem?_range hlt]
  simp only [Option.bind_eq_bind, Option.bind_some, Option.map_some, Option.any_some, canGo, hi.1,
    hhi, decide_true, Bool.true_and, Option.pure_def]
  cases hpartner : partner? (pairs ts) i with
  | none => rfl
  | some j =>
    have hj : j < min stop ts.length ↔ j < stop :=
      ⟨fun h => (Nat.lt_min.mp h).1, fun h => Nat.lt_min.mpr ⟨h, partner?_lt hpartner⟩⟩
    simp only [hj]

/-! ## Taking out several tokens -/

/-- Whether a token is at none of some places. -/
def apartFrom (places : List Nat) : Token → Nat → Bool := fun _ i => !places.contains i

theorem exists_split {ts : List Token} {i : Nat} (h : i < ts.length) :
    ∃ front t back, ts = front ++ t :: back ∧ front.length = i :=
  ⟨ts.take i, ts[i], ts.drop (i + 1), by simp, by simp; omega⟩

section

variable {places : List Nat} {front : List Token}

theorem filterPlacesFrom_before (h : ∀ j ∈ places, front.length ≤ j) :
    filterPlacesFrom (apartFrom places) 0 front = front :=
  filterPlacesFrom_eq_self fun j t ht => by
    have hlt := (List.getElem?_eq_some_iff.mp ht).1
    have hnot : 0 + j ∉ places := fun hmem => by
      have := h _ hmem
      omega
    simpa [apartFrom] using hnot

variable (h : ∀ j ∈ places, front.length < j) (t : Token) (back : List Token)

include h

/-- Before the first of the places everything is kept, and what is there too. -/
theorem filterPlacesFrom_apartFrom :
    filterPlacesFrom (apartFrom places) 0 (front ++ t :: back)
      = front ++ t :: filterPlacesFrom (apartFrom places) (front.length + 1) back := by
  have hhere : apartFrom places t (0 + front.length) = true := by
    have hnot : 0 + front.length ∉ places := fun hmem => by
      have := h _ hmem
      omega
    simpa [apartFrom] using hnot
  rw [filterPlacesFrom_append, filterPlacesFrom_before fun j hj => Nat.le_of_lt (h j hj),
    filterPlacesFrom_cons, if_pos hhere, Nat.zero_add]

/-- With one more place before the others, the token there goes. -/
theorem filterPlacesFrom_apartFrom_cons :
    filterPlacesFrom (apartFrom (front.length :: places)) 0 (front ++ t :: back)
      = front ++ filterPlacesFrom (apartFrom places) (front.length + 1) back := by
  have hhere : ¬ apartFrom (front.length :: places) t (0 + front.length) = true := by
    simp [apartFrom]
  have hbehind : filterPlacesFrom (apartFrom (front.length :: places)) (0 + front.length + 1) back
      = filterPlacesFrom (apartFrom places) (front.length + 1) back := by
    rw [Nat.zero_add]
    refine filterPlacesFrom_congr fun j _ _ => ?_
    have hne : front.length + 1 + j ≠ front.length := by omega
    simp [apartFrom, hne]
  rw [filterPlacesFrom_append, filterPlacesFrom_before, filterPlacesFrom_cons, if_neg hhere, hbehind]
  intro j hj
  obtain rfl | hj := List.mem_cons.mp hj
  · exact Nat.le_refl _
  · exact Nat.le_of_lt (h j hj)

end

/-- Taking tokens out from the last place to the first. -/
def takeOutEach? (places : List Nat) (ts : List Token) : Option (List Token) :=
  places.reverse.foldlM takeOut? ts

theorem takeOutEach?_eq {places : List Nat} (hsorted : places.Pairwise (· < ·)) {ts : List Token}
    (hlt : ∀ i ∈ places, i < ts.length) :
    takeOutEach? places ts = some (filterPlacesFrom (apartFrom places) 0 ts) := by
  induction places with
  | nil =>
    rw [filterPlacesFrom_eq_self fun _ _ _ => rfl]
    rfl
  | cons i places ih =>
    rw [List.pairwise_cons] at hsorted
    rw [List.forall_mem_cons] at hlt
    have hrest := ih hsorted.2 hlt.2
    obtain ⟨front, t, back, rfl, rfl⟩ := exists_split hlt.1
    rw [takeOutEach?, filterPlacesFrom_apartFrom hsorted.1] at hrest
    rw [takeOutEach?, List.reverse_cons, List.foldlM_append, hrest,
      filterPlacesFrom_apartFrom_cons hsorted.1]
    simp [takeOut?, List.eraseIdx_append_of_length_le]

theorem length_filterPlacesFrom_take {places : List Nat} {ts : List Token} {n : Nat}
    (h : ∀ j ∈ places, n ≤ j) (hn : n ≤ ts.length) :
    (filterPlacesFrom (apartFrom places) 0 (ts.take n)).length = n := by
  have hlength : (ts.take n).length = n := by simp [hn]
  rw [filterPlacesFrom_before (by rwa [hlength]), hlength]

section

variable (front : List Token) (t : Token) (rest : List Token) {n : Nat} {removed : Bool}

/-- A cursor before the place stays where it is. -/
theorem spliceOut_after (hn : n < front.length) :
    (Cursor.splice { level := front ++ t :: rest, index := n, removed } front.length 1 []).2
      = { level := front ++ rest, index := n, removed } := by
  have hcover : ¬ front.length ≤ n := Nat.not_le_of_lt hn
  have hbefore : ¬ front.length + 1 ≤ n := by omega
  simp [Cursor.splice, hcover, hbefore]

/-- A cursor at the place is left in the gap. -/
theorem spliceOut_here :
    (Cursor.splice { level := front ++ t :: rest, index := front.length } front.length 1 []).2
      = { level := front ++ rest, index := front.length, removed := true } := by
  simp [Cursor.splice]

/-- A cursor behind the place moves with its token. -/
theorem spliceOut_before (hn : front.length < n) :
    (Cursor.splice { level := front ++ t :: rest, index := n, removed } front.length 1 []).2
      = { level := front ++ rest, index := n - 1, removed } := by
  have hcover : ¬ n < front.length + 1 := by omega
  have hbefore : front.length + 1 ≤ n := hn
  simp [Cursor.splice, hcover, hbefore]

end

/-- The same through a cursor. -/
def spliceOutEach? (places : List Nat) (c : Cursor Token) : Option (Cursor Token) :=
  places.reverse.foldlM (fun c i => (c.splice? i 1 []).map Prod.snd) c

/-- **The cursor stays on its token**, as far as that stays. -/
theorem spliceOutEach?_eq {places : List Nat} (hsorted : places.Pairwise (· < ·)) {ts : List Token}
    (hlt : ∀ i ∈ places, i < ts.length) {n : Nat} (hn : n < ts.length) :
    spliceOutEach? places { level := ts, index := n }
      = some { level := filterPlacesFrom (apartFrom places) 0 ts
               index := (filterPlacesFrom (apartFrom places) 0 (ts.take n)).length
               removed := places.contains n } := by
  induction places with
  | nil =>
    rw [filterPlacesFrom_eq_self fun _ _ _ => rfl, filterPlacesFrom_eq_self fun _ _ _ => rfl,
      List.length_take, Nat.min_eq_left (Nat.le_of_lt hn)]
    rfl
  | cons i places ih =>
    have hrest := ih (List.pairwise_cons.mp hsorted).2 (List.forall_mem_cons.mp hlt).2
    have hfirst := (List.pairwise_cons.mp hsorted).1
    obtain ⟨front, t, back, rfl, rfl⟩ := exists_split (List.forall_mem_cons.mp hlt).1
    rw [spliceOutEach?] at hrest ⊢
    rw [List.reverse_cons, List.foldlM_append, hrest, filterPlacesFrom_apartFrom hfirst,
      filterPlacesFrom_apartFrom_cons hfirst]
    simp only [List.foldlM_cons, List.foldlM_nil, Cursor.splice?_eq, Option.map_some,
      Option.bind_eq_bind, Option.bind_some, Option.pure_def, Option.some.injEq]
    -- Nothing goes before a cursor that is not behind the place.
    have hindex (hle : n ≤ front.length) (gone : List Nat) (hgone : gone ⊆ front.length :: places) :
        (filterPlacesFrom (apartFrom gone) 0 ((front ++ t :: back).take n)).length = n := by
      refine length_filterPlacesFrom_take (fun j hj => ?_) (Nat.le_of_lt hn)
      obtain rfl | hj := List.mem_cons.mp (hgone hj)
      · exact hle
      · exact Nat.le_trans hle (Nat.le_of_lt (hfirst j hj))
    have hothers : places ⊆ front.length :: places := List.subset_cons_self _ _
    obtain hbefore | rfl | hbehind := Nat.lt_trichotomy n front.length
    · have hle : n ≤ front.length := Nat.le_of_lt hbefore
      have hnot : n ≠ front.length := Nat.ne_of_lt hbefore
      rw [hindex hle _ (List.Subset.refl _), hindex hle _ hothers, spliceOut_after front t _ hbefore]
      simp [hnot]
    · have hle : front.length ≤ front.length := Nat.le_refl _
      have hnot : front.length ∉ places := fun hmem => Nat.lt_irrefl _ (hfirst _ hmem)
      rw [hindex hle _ (List.Subset.refl _), hindex hle _ hothers]
      have hsplice := spliceOut_here front t
        (filterPlacesFrom (apartFrom places) (front.length + 1) back)
      simpa [hnot] using hsplice
    · obtain ⟨k, rfl⟩ := Nat.exists_eq_add_of_lt hbehind
      have htake : (front ++ t :: back).take (front.length + k + 1) = front ++ t :: back.take k := by
        rw [Nat.add_assoc, List.take_length_add_append, List.take_succ_cons]
      have hnot : front.length + k + 1 ≠ front.length := by omega
      rw [htake, filterPlacesFrom_apartFrom hfirst, filterPlacesFrom_apartFrom_cons hfirst,
        spliceOut_before front t _ (by simp)]
      simp [hnot]

/-- Without the tokens that can go, told by the level as it was before its texts were cut. -/
theorem filterPlacesFrom_doomed {ts us : List Token}
    (h : ∀ (i : Nat) (u : Token), us[i]? = some u →
      ∃ t : Token, ts[i]? = some t ∧ t.nesting = u.nesting) (start stop : Nat) :
    filterPlacesFrom (apartFrom (doomed ts start stop)) 0 us
      = filterPlaces (fun u i => !canGo (pairs ts) start stop u i) us := by
  rw [← filterPlacesFrom_zero]
  refine filterPlacesFrom_congr fun i u hu => ?_
  obtain ⟨t, ht, hn⟩ := h i u hu
  have hsame : canGo (pairs ts) start stop u i = canGo (pairs ts) start stop t i := by
    rw [canGo, canGo, hn]
  rw [Nat.zero_add, apartFrom, hsame, Bool.eq_iff_iff]
  simp [mem_doomed_iff ht]

/-- Taking out of a level what can go of a range. -/
theorem takeOutEach?_doomed (ts : List Token) (start stop : Nat) :
    takeOutEach? (doomed ts start stop) ts = some (removeWithin start stop ts) := by
  rw [takeOutEach?_eq (pairwise_doomed ts start stop) fun _ => lt_of_mem_doomed,
    filterPlacesFrom_doomed fun _ u hu => ⟨u, hu, rfl⟩]
  rfl

end Checked

end MarkdownPreview
