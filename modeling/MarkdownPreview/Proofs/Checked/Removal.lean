import MarkdownPreview.Proofs.Checked.Visit

/-!
# Taking comments out of a document, with every place checked

In a walk, the tokens before the cursor have had comments taken out of their children by then. A visit
cannot tell (`Splits`), for of what is before its cursor it only asks for kinds and nestings. So the
walk leaves in each level what the library does, which takes comments out of a whole level before it
goes down into it (`walk?_removeAll`).
-/

set_option autoImplicit false

namespace MarkdownPreview.Checked

open Text Comment

/-! ## No visit makes a level deeper -/

theorem levelDepth_cut_le (cut : Token → String) (i : Nat) (ts : List Token) :
    levelDepth (ts.modify i fun t => { t with content := cut t }) ≤ levelDepth ts :=
  levelDepth_modify_le (f := fun t => { t with content := cut t })
    (fun t => Nat.le_of_eq (by rw [Token.depth_eq, Token.depth_eq])) i ts

/-- A token is no deeper if a level below it has become none deeper. -/
theorem depth_recut_le {recut : List Token → List Token}
    (h : ∀ ts, levelDepth (recut ts) ≤ levelDepth ts) (t : Token) (content : String) :
    Token.depth { t with content, children := t.children.map recut } ≤ t.depth := by
  rw [Token.depth_eq, Token.depth_eq]
  dsimp only
  cases t.children with
  | none => exact le_rfl
  | some ts => exact Nat.succ_le_succ (h ts)

theorem levelDepth_closeUpIn_le (steps : Nat) (ts : List Token) :
    levelDepth (closeUpIn steps ts) ≤ levelDepth ts := by
  induction steps generalizing ts with
  | zero => exact le_rfl
  | succ steps ih =>
    rw [closeUpIn]
    cases honce : closeUpOnce? ts with
    | none => exact le_rfl
    | some us =>
      refine (ih us).trans ?_
      simp only [closeUpOnce?, Option.bind_eq_bind, Option.bind_eq_some_iff, Option.pure_def,
        Option.some.injEq] at honce
      obtain ⟨i, -, j, -, rfl⟩ := honce
      exact (levelDepth_le_of_subset (removeWithin_sublist _ _ _).subset).trans
        ((levelDepth_cut_le _ j _).trans (levelDepth_cut_le _ i ts))

theorem depth_closeUpToken_le (t : Token) : (closeUpToken t).depth ≤ t.depth := by
  unfold closeUpToken
  cases hchildren : t.children with
  | none => exact le_rfl
  | some ts =>
    dsimp only
    split
    · have hle := depth_recut_le (fun ts => levelDepth_closeUpIn_le (contentSize ts) ts) t
        (remove (readable t))
      rwa [hchildren] at hle
    · exact le_rfl

theorem levelDepth_childrenBefore_le (ts : List Token) :
    levelDepth (childrenBefore ts) ≤ levelDepth ts := by
  unfold childrenBefore
  split
  · exact le_rfl
  · rename_i i _
    dsimp only
    obtain ⟨n, hn⟩ := exists_dropEndWhile_eq_take showsNothing
      ((ts.modify i fun t => { t with content := trimmedEnd (headOf (readable t)) }).take (i + 1))
    rw [hn]
    exact (levelDepth_le_of_subset ((keepPaired_sublist _).trans
      ((List.take_sublist _ _).trans (List.take_sublist _ _))).subset).trans (levelDepth_cut_le _ i ts)

theorem levelDepth_childrenAfter_le (ts : List Token) :
    levelDepth (childrenAfter ts) ≤ levelDepth ts := by
  unfold childrenAfter
  split
  · exact le_rfl
  · rename_i i _
    exact (levelDepth_le_of_subset ((keepPaired_sublist _).trans
      ((List.dropWhile_sublist _).trans (List.drop_sublist _ _))).subset).trans
        (levelDepth_cut_le _ i ts)

theorem depth_cutHead_le (head : String) (t : Token) : (cutHead head t).depth ≤ t.depth := by
  unfold cutHead
  split
  · exact le_rfl
  · exact depth_recut_le levelDepth_childrenBefore_le t head

theorem depth_cutTail_le (tail : String) (t : Token) : (cutTail tail t).depth ≤ t.depth := by
  unfold cutTail
  split
  · exact le_rfl
  · exact depth_recut_le levelDepth_childrenAfter_le t tail

/-! ## What a visit asks of the tokens before it -/

/-- A cursor on a token, or in the gap it has left. -/
def land (before : List Token) (here? : Option Token) (after : List Token) : Cursor Token :=
  { level := before ++ (here?.toList ++ after), index := before.length, removed := here?.isNone }

/-- A visit to `t` leaves the tokens before its cursor as they were, or takes some of them out,
whatever the children of these are. What it leaves of the others is no deeper and no more than it has
found. -/
def Splits (visited : List Token → Nat → Cursor Token) (before : List Token) (t : Token)
    (after : List Token) : Prop :=
  ∃ (before' : List Token) (here? : Option Token) (after' : List Token),
    (∀ f, visited (before.map (Token.under f) ++ t :: after) before.length
      = land (before'.map (Token.under f)) here? after') ∧
    levelDepth (here?.toList ++ after') ≤ levelDepth (t :: after) ∧ after'.length ≤ after.length

theorem map_under_id (ts : List Token) : ts.map (Token.under id) = ts := by
  have hid (t : Token) : t.under id = t := by
    obtain ⟨kind, tag, nesting, attrs, content, info, markup, children, block, hidden⟩ := t
    cases children <;> rfl
  rw [funext hid]
  exact List.map_id ts

section

variable (f : List Token → List Token) (before rest : List Token)

/-- The kinds of a level do not tell what the children of some of its tokens are. -/
theorem isAt_under (k : Nat) (kind : Kind) :
    isAt (before.map (Token.under f) ++ rest) k kind = isAt (before ++ rest) k kind := by
  have hkinds : ((before.map (Token.under f) ++ rest)[k]?).map Token.kind
      = ((before ++ rest)[k]?).map Token.kind := by
    rw [← List.getElem?_map, ← List.getElem?_map, List.map_append, List.map_append, List.map_map]
    rfl
  have hany (t? : Option Token) :
      t?.any (fun t => t.kind == kind) = (t?.map Token.kind).any (· == kind) := by cases t? <;> rfl
  rw [isAt, isAt, hany, hany, hkinds]

theorem isBefore_under (k : Nat) (kind : Kind) :
    isBefore (before.map (Token.under f) ++ rest) k kind = isBefore (before ++ rest) k kind := by
  rw [isBefore, isBefore, isAt_under]

theorem pairs_under : pairs (before.map (Token.under f) ++ rest) = pairs (before ++ rest) := by
  refine pairsFrom_congr ?_
  rw [List.map_append, List.map_append, List.map_map]
  rfl

end

variable {before after : List Token} {t : Token}

theorem splits_self : Splits (fun ts i => { level := ts, index := i }) before t after :=
  ⟨before, some t, after, fun f => by simp [land], le_rfl, le_rfl⟩

theorem drop_behind {front : List Token} {n : Nat} (h : front.length = n) (k : Nat)
    (rest : List Token) : (front ++ rest).drop (n + k) = rest.drop k := by
  rw [← h, List.drop_length_add_append]

/-- A block on its own goes, unless it is all there is. -/
theorem splits_block_alone
    (h : (isBefore (before ++ t :: after) before.length (.opening .paragraph)
      && isAt (before ++ t :: after) (before.length + 1) (.closing .paragraph)) = false) :
    Splits blockLanding before t after := by
  have hlanding (f : List Token → List Token) :
      blockLanding (before.map (Token.under f) ++ t :: after) before.length
        = if 1 ≥ (before ++ t :: after).length then land (before.map (Token.under f)) (some t) after
          else land (before.map (Token.under f)) none after := by
    rw [blockLanding, isBefore_under, isAt_under, h]
    have hlength : (before.map (Token.under f)).length = before.length := List.length_map _
    simp [land, drop_behind hlength]
  by_cases hall : 1 ≥ (before ++ t :: after).length
  · exact ⟨before, some t, after, fun f => by rw [hlanding, if_pos hall], le_rfl, le_rfl⟩
  · exact ⟨before, none, after, fun f => by rw [hlanding, if_neg hall],
      levelDepth_le_of_subset (List.subset_cons_self t after), le_rfl⟩

/-- A block in a paragraph goes with it, unless they are all there is. -/
theorem splits_block_wrapped {opening closing : Token}
    (h : (isBefore (before ++ [opening] ++ t :: closing :: after) (before ++ [opening]).length
        (.opening .paragraph)
      && isAt (before ++ [opening] ++ t :: closing :: after) ((before ++ [opening]).length + 1)
        (.closing .paragraph)) = true) :
    Splits blockLanding (before ++ [opening]) t (closing :: after) := by
  have hlanding (f : List Token → List Token) :
      blockLanding ((before ++ [opening]).map (Token.under f) ++ t :: closing :: after)
          (before ++ [opening]).length
        = if 3 ≥ (before ++ opening :: t :: closing :: after).length then
            land ((before ++ [opening]).map (Token.under f)) (some t) (closing :: after)
          else land (before.map (Token.under f)) none after := by
    rw [blockLanding, isBefore_under, isAt_under, h]
    have hlength : (before.map (Token.under f)).length = before.length := List.length_map _
    simp [land, drop_behind hlength]
  by_cases hall : 3 ≥ (before ++ opening :: t :: closing :: after).length
  · exact ⟨before ++ [opening], some t, closing :: after, fun f => by rw [hlanding, if_pos hall],
      le_rfl, le_rfl⟩
  · refine ⟨before, none, after, fun f => by rw [hlanding, if_neg hall],
      levelDepth_le_of_subset ?_, Nat.le_succ _⟩
    exact fun u hu => List.mem_cons_of_mem _ (List.mem_cons_of_mem _ hu)

theorem splits_block : Splits blockLanding before t after := by
  cases hwrapped : isBefore (before ++ t :: after) before.length (.opening .paragraph)
      && isAt (before ++ t :: after) (before.length + 1) (.closing .paragraph) with
  | false => exact splits_block_alone hwrapped
  | true =>
    obtain ⟨hbefore, hafter⟩ := Bool.and_eq_true_iff.mp hwrapped
    obtain rfl | ⟨before, opening, rfl⟩ := List.eq_nil_or_concat' before
    · cases hbefore
    · cases after with
      | nil =>
        rw [isAt, List.getElem?_eq_none (by simp)] at hafter
        cases hafter
      | cons closing after => exact splits_block_wrapped hwrapped

theorem coveredRange_under (f : List Token → List Token) (rest : List Token) (i j : Nat)
    (head tail : String) :
    coveredRange (before.map (Token.under f) ++ rest) i j head tail
      = coveredRange (before ++ rest) i j head tail := by
  rw [coveredRange, coveredRange, isBefore_under, isAt_under]

theorem filterPlacesFrom_under {keep : Token → Nat → Bool} {f : List Token → List Token}
    (h : ∀ t i, keep (t.under f) i = keep t i) (k : Nat) (ts : List Token) :
    filterPlacesFrom keep k (ts.map (Token.under f))
      = (filterPlacesFrom keep k ts).map (Token.under f) := by
  induction ts generalizing k with
  | nil => rfl
  | cons t ts ih =>
    rw [List.map_cons, filterPlacesFrom_cons, filterPlacesFrom_cons, h, ih]
    split <;> rfl

theorem getElem?_behind (front : List Token) (t : Token) (after : List Token) (k : Nat) :
    (front ++ t :: after)[k + (front.length + 1)]? = after[k]? := by
  rw [List.getElem?_append_right (by omega), show k + (front.length + 1) - front.length = k + 1 by omega,
    List.getElem?_cons_succ]

/-- Changing the current token and one behind it. -/
theorem modify_behind (g h : Token → Token) (front : List Token) (t : Token) (after : List Token)
    (k : Nat) :
    ((front ++ t :: after).modify (k + (front.length + 1)) g).modify front.length h
      = front ++ h t :: after.modify k g := by
  refine List.ext_getElem? fun n => ?_
  rw [List.getElem?_modify, List.getElem?_modify]
  obtain hlt | rfl | hgt := Nat.lt_trichotomy n front.length
  · have hne : ¬ k + (front.length + 1) = n := by omega
    have hne' : ¬ front.length = n := by omega
    simp [hne, hne', List.getElem?_append_left hlt]
  · have hne : ¬ k + (front.length + 1) = front.length := by omega
    simp [hne]
  · obtain ⟨m, rfl⟩ := Nat.exists_eq_add_of_le' (Nat.succ_le_of_lt hgt)
    have hne : ¬ front.length = m + (front.length + 1) := by omega
    rw [getElem?_behind, getElem?_behind, List.getElem?_modify]
    simp [hne]

theorem staysAcross_congr {ts : List Token} {t u : Token} (h : t.nesting = u.nesting) (i j : Nat)
    (head tail : String) (k : Nat) :
    staysAcross ts i j head tail t k = staysAcross ts i j head tail u k := by
  simp only [staysAcross, canGo, h]

theorem staysAcross_under (f : List Token → List Token) (rest : List Token) (i j : Nat)
    (head tail : String) : staysAcross (before.map (Token.under f) ++ rest) i j head tail
      = staysAcross (before ++ rest) i j head tail := by
  funext u k
  rw [staysAcross, staysAcross, coveredRange_under, pairs_under]

section

variable (f : List Token → List Token) (text : String)

/-- The first place behind the current token at which a comment may end. -/
theorem placeFrom?_behind :
    placeFrom? endsAcross (before.length + 1) (before.map (Token.under f) ++ t :: after)
      = (after.findIdx? endsAcross).map (· + (before.length + 1)) := by
  rw [placeFrom?, drop_behind (List.length_map _), List.drop_succ_cons, List.drop_zero]

theorem acrossLanding_none (h : after.findIdx? endsAcross = none) :
    acrossLanding (before.map (Token.under f) ++ t :: after) before.length text
      = land (before.map (Token.under f)) (some t) after := by
  rw [acrossLanding, placeFrom?_behind, h]
  simp [land]

/-- What stays before the current token, whether that stays, and what stays behind it. -/
theorem acrossLanding_some {k : Nat} {head tail : String} {stays : Token → Nat → Bool}
    (h : after.findIdx? endsAcross = some k) (hhead : trimmedEnd (headOf text) = head)
    (htail : trimmedStart ((after[k]?.map fun t => tailOf (readable t)).getD "") = tail)
    (hstays : staysAcross (before ++ t :: after) before.length (k + (before.length + 1)) head tail
      = stays) :
    acrossLanding (before.map (Token.under f) ++ t :: after) before.length text
      = land ((filterPlacesFrom stays 0 before).map (Token.under f))
          (if stays t before.length then some (cutHead head t) else none)
          (filterPlacesFrom stays (before.length + 1) (after.modify k (cutTail tail))) := by
  have hcongr {u v : Token} (huv : u.nesting = v.nesting) (i : Nat) : stays u i = stays v i := by
    rw [← hstays]
    exact staysAcross_congr huv _ _ head tail i
  have hlength : (before.map (Token.under f)).length = before.length := List.length_map _
  have hget := getElem?_behind (before.map (Token.under f)) t after k
  have hcut := modify_behind (cutTail tail) (cutHead head) (before.map (Token.under f)) t after k
  rw [hlength] at hget hcut
  have htake : (before.map (Token.under f) ++ t :: after).take before.length
      = before.map (Token.under f) := by rw [← hlength, List.take_left]
  have hhere : (before.map (Token.under f) ++ t :: after)[before.length]? = some t := by simp
  have hunder := filterPlacesFrom_under (f := f) (fun t i => hcongr (u := t.under f) (v := t) rfl i)
    0 before
  rw [acrossLanding, placeFrom?_behind, h]
  simp only [Option.map_some, hget, hhead, htail, staysAcross_under, hstays, cutEnds, hcut, htake,
    hhere, Option.any_some, ← filterPlacesFrom_zero, filterPlacesFrom_append, filterPlacesFrom_cons,
    hunder, hlength, Nat.zero_add, hcongr (nesting_cutHead head t)]
  cases stays t before.length <;> simp [land]

end

theorem splits_across (text : String) : Splits (acrossLanding · · text) before t after := by
  cases h : after.findIdx? endsAcross with
  | none => exact ⟨before, some t, after, fun f => acrossLanding_none f text h, le_rfl, le_rfl⟩
  | some k =>
    generalize htail : trimmedStart ((after[k]?.map fun t => tailOf (readable t)).getD "") = tail
    generalize hstays : staysAcross (before ++ t :: after) before.length (k + (before.length + 1))
      (trimmedEnd (headOf text)) tail = stays
    refine ⟨_, _, _, fun f => acrossLanding_some f text h rfl htail hstays, ?_, ?_⟩
    · have hafter : levelDepth (filterPlacesFrom stays (before.length + 1)
          (after.modify k (cutTail tail))) ≤ levelDepth after :=
        (levelDepth_le_of_subset (filterPlacesFrom_sublist _ _ _).subset).trans
          (levelDepth_modify_le (depth_cutTail_le tail) k after)
      have hhere := depth_cutHead_le (trimmedEnd (headOf text)) t
      rw [levelDepth]
      cases stays t before.length with
      | true =>
        simp only [if_true, Option.toList_some, List.singleton_append, levelDepth]
        omega
      | false =>
        simp only [Bool.false_eq_true, if_false, Option.toList_none, List.nil_append]
        omega
    · refine (filterPlacesFrom_sublist _ _ _).length_le.trans ?_
      rw [List.length_modify]

theorem Splits.of_depth_le {visited : List Token → Nat → Cursor Token} {u : Token}
    (h : Splits visited before u after) (hle : u.depth ≤ t.depth)
    {visited' : List Token → Nat → Cursor Token}
    (hsame : ∀ f, visited' (before.map (Token.under f) ++ t :: after) before.length
      = visited (before.map (Token.under f) ++ u :: after) before.length) :
    Splits visited' before t after := by
  obtain ⟨before', here?, after', hland, hdepth, hlength⟩ := h
  refine ⟨before', here?, after', fun f => (hsame f).trans (hland f), hdepth.trans ?_, hlength⟩
  rw [levelDepth, levelDepth]
  omega

/-- **A visit cannot tell that a walk has been in the tokens before.** -/
theorem splits_landing (before : List Token) (t : Token) (after : List Token) :
    Splits landing before t after := by
  have hhere (f : List Token → List Token) :
      (before.map (Token.under f) ++ t :: after)[before.length]? = some t := by simp
  have hset (f : List Token → List Token) :
      (before.map (Token.under f) ++ t :: after).set before.length (closeUpToken t)
        = before.map (Token.under f) ++ closeUpToken t :: after := by simp
  by_cases hlook : t.kind = .inline ∧ hasStart (readable t) = true
  · by_cases hempty : (trimmedEnd (remove (readable (closeUpToken t)))).isEmpty = true
    · refine splits_block.of_depth_le (depth_closeUpToken_le t) fun f => ?_
      rw [landing, hhere]
      simp only [if_pos hlook, if_pos hempty, hset]
    · by_cases hopen : isDangling (readable (closeUpToken t)) = true
      · refine (splits_across (readable (closeUpToken t))).of_depth_le (depth_closeUpToken_le t)
          fun f => ?_
        rw [landing, hhere]
        simp only [if_pos hlook, if_neg hempty, if_pos hopen, hset]
      · refine splits_self.of_depth_le (depth_closeUpToken_le t) fun f => ?_
        rw [landing, hhere]
        simp only [if_pos hlook, if_neg hempty, if_neg hopen, hset]
  · refine splits_self.of_depth_le le_rfl fun f => ?_
    rw [landing, hhere]
    simp only [if_neg hlook]

/-! ## A level and a document -/

theorem levelFrom_over {ts : List Token} {i : Nat} (h : ts.length ≤ i) (steps : Nat) :
    levelFrom steps i ts = ts := by
  induction steps generalizing i with
  | zero => rfl
  | succ steps ih =>
    rw [levelFrom, visit, List.getElem?_eq_none h]
    exact ih (Nat.le_succ_of_le h)

theorem onward_land (before : List Token) (here? : Option Token) (after : List Token) :
    (land before here? after).onward = (before ++ here?.toList).length := by
  cases here? <;> simp [Cursor.onward, land]

/-- What the library does to a level is a run of visits in a walk. -/
theorem sweep_levelFrom (inner : List Token → List Token) (steps : Nat) (done : List Token)
    {todo : List Token} (h : todo.length ≤ steps) :
    Sweep removeVisit? inner done todo (levelFrom steps done.length (done ++ todo)) := by
  induction steps generalizing done todo with
  | zero =>
    obtain rfl := List.eq_nil_of_length_eq_zero (Nat.le_zero.mp h)
    rw [List.append_nil]
    exact .ended done
  | succ steps ih =>
    cases todo with
    | nil =>
      rw [List.append_nil, levelFrom_over (Nat.le_refl _)]
      exact .ended done
    | cons t todo =>
      obtain ⟨done', here?, todo', hland, hdepth, hlength⟩ := splits_landing done t todo
      rw [List.length_cons] at h
      have hplain := hland id
      rw [map_under_id, map_under_id] at hplain
      have hvisit := hland inner
      have hplace : done.length < (done.map (Token.under inner) ++ t :: todo).length := by simp
      have hchecked := removeVisit?_eq hplace
      have hshort : todo'.length ≤ steps := by omega
      have hrest := ih (done' ++ here?.toList) hshort
      have hstep : levelFrom (steps + 1) done.length (done ++ t :: todo)
          = levelFrom steps (done' ++ here?.toList).length (done' ++ here?.toList ++ todo') := by
        rw [levelFrom, visit_eq (by simp), hplain, onward_land, land, List.append_assoc]
      rw [hvisit] at hchecked
      rw [hstep]
      cases here? with
      | some u =>
        refine .stay ?_ hdepth hrest
        simpa [land] using hchecked
      | none =>
        rw [Option.toList_none, List.append_nil] at hrest ⊢
        refine .gone ?_ hdepth hrest
        simpa [land] using hchecked

theorem levelDepth_takeOutAcross_le (ts : List Token) (i : Nat) (text : String) :
    levelDepth (takeOutAcross ts i text).1 ≤ levelDepth ts := by
  unfold takeOutAcross
  cases placeFrom? endsAcross (i + 1) ts with
  | none => exact le_rfl
  | some j =>
    dsimp only
    refine (levelDepth_le_of_subset (filterPlaces_sublist _ _).subset).trans ?_
    refine (levelDepth_modify_le (depth_cutHead_le _) i _).trans ?_
    exact levelDepth_modify_le (depth_cutTail_le _) j ts

theorem levelDepth_visit_le (ts : List Token) (i : Nat) :
    levelDepth (visit ts i).1 ≤ levelDepth ts := by
  rw [visit]
  cases ht : ts[i]? with
  | none => exact le_rfl
  | some t =>
    dsimp only
    have hclosed : levelDepth (ts.set i (closeUpToken t)) ≤ levelDepth ts := by
      rw [set_eq_modify closeUpToken ht]
      exact levelDepth_modify_le depth_closeUpToken_le i ts
    by_cases hlook : t.kind = .inline ∧ hasStart (readable t) = true
    · rw [if_pos hlook]
      refine Nat.le_trans ?_ hclosed
      split
      · exact levelDepth_le_of_subset (takeOutBlock_sublist _ i).subset
      · split
        · exact levelDepth_takeOutAcross_le _ i _
        · exact le_rfl
    · rw [if_neg hlook]

theorem levelDepth_removeFromLevel_le (ts : List Token) :
    levelDepth (removeFromLevel ts) ≤ levelDepth ts := by
  have hsteps (steps : Nat) : ∀ i ts, levelDepth (levelFrom steps i ts) ≤ levelDepth ts := by
    induction steps with
    | zero => exact fun _ _ => le_rfl
    | succ steps ih => exact fun i ts => (ih _ _).trans (levelDepth_visit_le ts i)
  exact hsteps _ _ ts

theorem map_under_congr {f g : List Token → List Token} {ts : List Token}
    (h : ∀ t ∈ ts, ∀ cs, t.children = some cs → f cs = g cs) :
    ts.map (Token.under f) = ts.map (Token.under g) := by
  refine List.map_congr_left fun t ht => ?_
  rw [Token.under, Token.under]
  cases hchildren : t.children with
  | none => rfl
  | some cs => rw [Option.map_some, Option.map_some, h t ht cs hchildren]

theorem removeTo_succ (depth : Nat) (ts : List Token) :
    removeTo (depth + 1) ts = (removeFromLevel ts).map (Token.under (removeTo depth)) := rfl

/-- Once there is no level left to go to, it does not matter how many more are allowed. -/
theorem removeTo_stable {depth : Nat} {ts : List Token} (h : levelDepth ts ≤ depth) :
    removeTo (depth + 1) ts = removeTo depth ts := by
  induction depth generalizing ts with
  | zero =>
    have hnone (t : Token) (ht : t ∈ removeFromLevel ts) (cs : List Token)
        (hcs : t.children = some cs) : removeTo 0 cs = id cs := by
      have hdeep := Token.depth_eq_of_children hcs
      have hle := (depth_le_levelDepth ht).trans ((levelDepth_removeFromLevel_le ts).trans h)
      omega
    rw [removeTo_succ, map_under_congr hnone, map_under_id]
    rfl
  | succ depth ih =>
    rw [removeTo_succ, removeTo_succ]
    refine map_under_congr fun t ht cs hcs => ih ?_
    have hdeep := Token.depth_eq_of_children hcs
    have hle := (depth_le_levelDepth ht).trans ((levelDepth_removeFromLevel_le ts).trans h)
    omega

theorem removeTo_eq_removeAll {depth : Nat} {ts : List Token} (h : levelDepth ts ≤ depth) :
    removeTo depth ts = removeAll ts := by
  induction h with
  | refl => rfl
  | step h ih => rw [removeTo_stable h, ih]

theorem removeAll_eq (ts : List Token) :
    removeAll ts = (removeFromLevel ts).map (Token.under removeAll) := by
  rw [← removeTo_eq_removeAll (Nat.le_succ (levelDepth ts)), removeTo_succ]
  refine map_under_congr fun t ht cs hcs => removeTo_eq_removeAll ?_
  have hdeep := Token.depth_eq_of_children hcs
  have hle := (depth_le_levelDepth ht).trans (levelDepth_removeFromLevel_le ts)
  omega

/-- **The comments of a document can be taken out of it**, whatever its tokens are. -/
theorem walk?_removeAll (ts : List Token) :
    ∃ n, ∀ steps, n ≤ steps → walk? removeVisit? steps ts = some (removeAll ts) :=
  walk?_of_sweeps (fun ts => ⟨removeFromLevel ts,
    sweep_levelFrom removeAll ts.length [] (Nat.le_refl _), removeAll_eq ts⟩) ts

end MarkdownPreview.Checked
