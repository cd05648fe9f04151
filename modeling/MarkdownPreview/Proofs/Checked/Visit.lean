import MarkdownPreview.Proofs.Checked.Cursor
import MarkdownPreview.Proofs.Checked.Walk
import MarkdownPreview.Proofs.Checked.Within
import MarkdownPreview.Proofs.Walk.Gap

/-!
# Looking at one token for comments, with every place checked

A visit looks one place back and some places ahead, finds out which places are to go, cuts two tokens
and takes the others out through its cursor (`removeVisit?_eq`). Where it leaves the cursor
(`landing`) says more than the library does: not only the place of the next token to look at, but also
whether the one looked at has gone (`visit_eq`).
-/

set_option autoImplicit false

namespace MarkdownPreview.Checked

open Text Comment

variable {ts : List Token} {i j : Nat}

/-! ## One block -/

/-- Whether there is a token of a kind before a place. -/
def beforeIs? (ts : List Token) (i : Nat) (kind : Kind) : Option Bool :=
  if 0 < i then do
    let t ← ts[← sub? i 1]?
    return t.kind == kind
  else some false

theorem beforeIs?_eq (h : i < ts.length) (kind : Kind) :
    beforeIs? ts i kind = some (isBefore ts i kind) := by
  rw [beforeIs?, isBefore, isAt]
  by_cases hi : 0 < i
  · have hlt : i - 1 < ts.length := by omega
    have hne : i ≠ 0 := by omega
    simp [hi, hne, sub?_eq hi, List.getElem?_eq_getElem hlt]
  · have hzero : i = 0 := by omega
    simp [hzero]

def takeOutBlock? (c : Cursor Token) : Option (Cursor Token) := do
  let opened ← beforeIs? c.level c.index (.opening .paragraph)
  let (start, count) ←
    if opened && isAt c.level (c.index + 1) (.closing .paragraph) then
      (sub? c.index 1).map fun start => (start, 3)
    else some (c.index, 1)
  if count ≥ c.level.length then return c
  else (c.splice? start count []).map Prod.snd

/-- Where the removal of one block leaves the cursor. -/
def blockLanding (ts : List Token) (i : Nat) : Cursor Token :=
  let (start, count) :=
    if isBefore ts i (.opening .paragraph) && isAt ts (i + 1) (.closing .paragraph) then (i - 1, 3)
    else (i, 1)
  if count ≥ ts.length then { level := ts, index := i }
  else { level := ts.take start ++ ts.drop (start + count), index := start, removed := true }

theorem splice_covered {start count : Nat} (hi : i < ts.length) (hlo : start ≤ i)
    (hhi : i < start + count) :
    (Cursor.splice { level := ts, index := i } start count []).2
      = { level := ts.take start ++ ts.drop (start + count), index := start, removed := true } := by
  have hstart : min start ts.length = start := by omega
  have hstop : i < min (start + count) ts.length := by omega
  have hdrop : ts.drop (min (start + count) ts.length) = ts.drop (start + count) :=
    List.drop_eq_drop_iff.mpr (by omega)
  simp only [Cursor.splice, hstart, hstop, hlo, decide_true, Bool.not_false, Bool.and_self, if_true,
    hdrop, List.append_nil]

theorem takeOutBlock?_eq (h : i < ts.length) :
    takeOutBlock? { level := ts, index := i } = some (blockLanding ts i) := by
  simp only [takeOutBlock?, beforeIs?_eq h, blockLanding, Option.bind_eq_bind, Option.bind_some]
  cases hwrapped : isBefore ts i (.opening .paragraph) && isAt ts (i + 1) (.closing .paragraph) with
  | true =>
    have hi : 1 ≤ i := by
      rw [Bool.and_eq_true, isBefore, Bool.and_eq_true, bne_iff_ne] at hwrapped
      omega
    simp only [if_true, sub?_eq hi, Option.map_some, Option.bind_some, Cursor.splice?_eq]
    split
    · rfl
    · rw [splice_covered h (by omega) (by omega)]
  | false =>
    simp only [Bool.false_eq_true, if_false, Cursor.splice?_eq, Option.map_some]
    split
    · rfl
    · rw [splice_covered h (by omega) (by omega)]

/-! ## Several blocks -/

def cutHead? (head : String) (t : Token) : Option Token :=
  if head.isEmpty then some t
  else match t.children with
    | none => some { t with content := head }
    | some ts => (childrenBefore? ts).map fun ts => { t with content := head, children := some ts }

def cutTail? (tail : String) (t : Token) : Option Token :=
  if tail.isEmpty then some t
  else match t.children with
    | none => some { t with content := tail }
    | some ts => (childrenAfter? ts).map fun ts => { t with content := tail, children := some ts }

/-- The range of places that a comment covers. -/
def coveredRange? (ts : List Token) (i j : Nat) (head tail : String) : Option (Nat × Nat) := do
  let start ←
    if !head.isEmpty then some (i + 1)
    else do
      let opened ← beforeIs? ts i (.opening .paragraph)
      if opened then sub? i 1 else some i
  let stop :=
    if !tail.isEmpty then j
    else if isAt ts (j + 1) (.closing .paragraph) then j + 2
    else j + 1
  return (start, stop)

def takeOutAcross? (c : Cursor Token) (text : String) : Option (Cursor Token) := do
  match ← findAt? endsAcross c.level (c.level.length - (c.index + 1)) (c.index + 1) with
  | none => return c
  | some j =>
    let head? ← beforeOpen? text
    let closing ← c.level[j]?
    let tail? ← afterClose? (readable closing)
    let head := trimmedEnd (head?.getD "")
    let tail := trimmedStart (tail?.getD "")
    let range ← coveredRange? c.level c.index j head tail
    let places ← removable? c.level range.1 range.2
    let closing ← cutTail? tail closing
    let c := c.editAt j fun _ => closing
    let opening ← c.current?
    let opening ← cutHead? head opening
    let c := c.edit fun _ => opening
    spliceOutEach? places c

/-- Whether a token stays when the comment from place `i` to place `j` goes. -/
def staysAcross (ts : List Token) (i j : Nat) (head tail : String) (t : Token) (k : Nat) : Bool :=
  let range := coveredRange ts i j head tail
  !canGo (pairs ts) range.1 range.2 t k

/-- A level with the texts at both ends of a comment cut. -/
def cutEnds (ts : List Token) (i j : Nat) (head tail : String) : List Token :=
  (ts.modify j (cutTail tail)).modify i (cutHead head)

/-- Where the removal of several blocks leaves the cursor. -/
def acrossLanding (ts : List Token) (i : Nat) (text : String) : Cursor Token :=
  match placeFrom? endsAcross (i + 1) ts with
  | none => { level := ts, index := i }
  | some j =>
    let head := trimmedEnd (headOf text)
    let tail := trimmedStart ((ts[j]?.map fun t => tailOf (readable t)).getD "")
    let stays := staysAcross ts i j head tail
    { level := filterPlaces stays (cutEnds ts i j head tail)
      index := (filterPlaces stays (ts.take i)).length
      removed := ts[i]?.any fun t => !stays t i }

theorem cutHead?_eq (head : String) (t : Token) : cutHead? head t = some (cutHead head t) := by
  unfold cutHead? cutHead
  split
  · rfl
  · obtain ⟨kind, tag, nesting, attrs, content, info, markup, children, block, hidden⟩ := t
    cases children with
    | none => rfl
    | some ts => simp only [childrenBefore?_eq]; rfl

theorem cutTail?_eq (tail : String) (t : Token) : cutTail? tail t = some (cutTail tail t) := by
  unfold cutTail? cutTail
  split
  · rfl
  · obtain ⟨kind, tag, nesting, attrs, content, info, markup, children, block, hidden⟩ := t
    cases children with
    | none => rfl
    | some ts => simp only [childrenAfter?_eq]; rfl

theorem coveredRange?_eq (h : i < ts.length) (j : Nat) (head tail : String) :
    coveredRange? ts i j head tail = some (coveredRange ts i j head tail) := by
  rw [coveredRange?, beforeIs?_eq h, coveredRange]
  cases hopened : isBefore ts i (.opening .paragraph) with
  | true =>
    have hi : 1 ≤ i := by
      rw [isBefore, Bool.and_eq_true, bne_iff_ne] at hopened
      omega
    cases head.isEmpty <;> simp [sub?_eq hi]
  | false => cases head.isEmpty <;> simp

section

variable {head tail : String}

/-- The tokens of a level have the nestings they had before two of them were cut. -/
theorem nesting_cutEnds {k : Nat} {u : Token} (hu : (cutEnds ts i j head tail)[k]? = some u) :
    ∃ t, ts[k]? = some t ∧ t.nesting = u.nesting := by
  have hnestings : (cutEnds ts i j head tail).map Token.nesting = ts.map Token.nesting :=
    (map_modify_eq (nesting_cutHead head) i _).trans (map_modify_eq (nesting_cutTail tail) j ts)
  have hrow := congrArg (·[k]?) hnestings
  simp only [List.getElem?_map, hu, Option.map_some] at hrow
  obtain ⟨t, ht, hn⟩ := Option.map_eq_some_iff.mp hrow.symm
  exact ⟨t, ht, hn⟩

theorem length_cutEnds : (cutEnds ts i j head tail).length = ts.length := by
  rw [cutEnds, List.length_modify, List.length_modify]

theorem take_cutEnds (hij : i ≤ j) : (cutEnds ts i j head tail).take i = ts.take i := by
  have hfront : (ts.take i).length ≤ i := by simp
  rw [cutEnds, List.take_modify, List.take_modify, List.modify_eq_self (Nat.le_trans hfront hij),
    List.modify_eq_self hfront]

theorem editAt_eq (c : Cursor Token) {u : Token} (hu : c.level[j]? = some u) (f : Token → Token) :
    (c.editAt j fun _ => f u) = { c with level := c.level.modify j f } := by
  have hsame : c.level.modify j (fun _ => f u) = c.level.modify j f := by
    rw [← set_eq_modify f hu, ← set_eq_modify (fun _ => f u) hu]
  rw [Cursor.editAt, hsame]

/-- Cutting the two texts through a cursor. -/
theorem edit_ends (h : i < ts.length) (hij : i < j) {u : Token} (hu : ts[j]? = some u) :
    let c := (Cursor.mk ts i false none).editAt j fun _ => cutTail tail u
    c.current? = some ts[i]
      ∧ c.edit (fun _ => cutHead head ts[i]) = { level := cutEnds ts i j head tail, index := i } := by
  have hne : j ≠ i := Nat.ne_of_gt hij
  have ht : (ts.modify j (cutTail tail))[i]? = some ts[i] := by
    simp [hne, List.getElem?_eq_getElem h]
  rw [editAt_eq { level := ts, index := i } hu (cutTail tail)]
  exact ⟨ht, editAt_eq { level := ts.modify j (cutTail tail), index := i } ht (cutHead head)⟩

/-- What has been found to go, before the cuts, is taken out after them. -/
theorem spliceOutEach?_cutEnds (h : i < ts.length) (hij : i ≤ j) :
    spliceOutEach? (doomed ts (coveredRange ts i j head tail).1 (coveredRange ts i j head tail).2)
        { level := cutEnds ts i j head tail, index := i }
      = some { level := filterPlaces (staysAcross ts i j head tail) (cutEnds ts i j head tail)
               index := (filterPlaces (staysAcross ts i j head tail) (ts.take i)).length
               removed := ts[i]?.any fun t => !staysAcross ts i j head tail t i } := by
  have hbefore (k : Nat) (u : Token) (hu : (ts.take i)[k]? = some u) : ts[k]? = some u := by
    rw [List.getElem?_take] at hu
    split at hu
    · exact hu
    · cases hu
  have ht := List.getElem?_eq_getElem h
  rw [spliceOutEach?_eq (pairwise_doomed ts _ _)
    (fun k hk => length_cutEnds.symm ▸ lt_of_mem_doomed hk) (length_cutEnds.symm ▸ h),
    take_cutEnds hij, filterPlacesFrom_doomed fun _ _ => nesting_cutEnds,
    filterPlacesFrom_doomed fun k u hu => ⟨u, hbefore k u hu, rfl⟩, contains_doomed ht, ht,
    Option.any_some, staysAcross, Bool.not_not]
  rfl

end

theorem takeOutAcross?_eq (h : i < ts.length) (text : String) :
    takeOutAcross? { level := ts, index := i } text = some (acrossLanding ts i text) := by
  simp only [takeOutAcross?, findAt?_eq, acrossLanding, Option.bind_eq_bind, Option.bind_some]
  cases hj : placeFrom? endsAcross (i + 1) ts with
  | none => rfl
  | some j =>
    obtain ⟨u, hu, -, hij⟩ := placeFrom?_some hj
    have hhead : (beforeDangling? text).getD "" = headOf text := rfl
    have htail : (afterEnd? (readable u)).getD "" = tailOf (readable u) := rfl
    simp only [beforeOpen?_eq, afterClose?_eq, hu, hhead, htail, coveredRange?_eq h, removable?_eq,
      cutTail?_eq, cutHead?_eq, Option.bind_some, Option.map_some, Option.getD_some]
    obtain ⟨hcurrent, hedit⟩ := edit_ends h hij hu
    rw [hcurrent, Option.bind_some, hedit]
    exact spliceOutEach?_cutEnds h (Nat.le_of_lt hij)

/-! ## One visit -/

def removeVisit? : Visit? := fun c =>
  match c.current? with
  | none => some c
  | some t =>
    if t.kind = .inline ∧ hasStart (readable t) = true then do
      let t ← closeUpToken? t
      let c := c.edit fun _ => t
      let text := readable t
      if (trimmedEnd (remove text)).isEmpty then takeOutBlock? c
      else do
        let head? ← beforeOpen? text
        if head?.isSome then takeOutAcross? c text else return c
    else some c

/-- Where a visit leaves the cursor. -/
def landing (ts : List Token) (i : Nat) : Cursor Token :=
  match ts[i]? with
  | none => { level := ts, index := i }
  | some t =>
    if t.kind = .inline ∧ hasStart (readable t) = true then
      let t := closeUpToken t
      let ts := ts.set i t
      let text := readable t
      if (trimmedEnd (remove text)).isEmpty then blockLanding ts i
      else if isDangling text then acrossLanding ts i text
      else { level := ts, index := i }
    else { level := ts, index := i }

/-- **A visit never fails**, wherever it is. -/
theorem removeVisit?_eq (h : i < ts.length) :
    removeVisit? { level := ts, index := i } = some (landing ts i) := by
  have ht := List.getElem?_eq_getElem h
  have hcurrent : (Cursor.mk ts i false none).current? = some ts[i] := ht
  rw [removeVisit?, hcurrent, landing, ht]
  dsimp only
  split
  · have hset : (Cursor.mk ts i false none).edit (fun _ => closeUpToken ts[i])
        = { level := ts.set i (closeUpToken ts[i]), index := i } := by
      rw [set_eq_modify closeUpToken ht]
      exact editAt_eq { level := ts, index := i } ht closeUpToken
    have hlt : i < (ts.set i (closeUpToken ts[i])).length := by rwa [List.length_set]
    rw [closeUpToken?_eq, Option.bind_eq_bind, Option.bind_some, hset]
    generalize closeUpToken ts[i] = t at hlt ⊢
    rw [takeOutBlock?_eq hlt, takeOutAcross?_eq hlt, beforeOpen?_eq, Option.bind_eq_bind,
      Option.bind_some, isDangling]
    by_cases hempty : (trimmedEnd (remove (readable t))).isEmpty = true
    · rw [if_pos hempty, if_pos hempty]
    · rw [if_neg hempty, if_neg hempty]
      by_cases hopen : (beforeDangling? (readable t)).isSome = true
      · rw [if_pos hopen, if_pos hopen]
      · rw [if_neg hopen, if_neg hopen]
        rfl
  · rfl

/-! ## The library's visit -/

theorem takeOutBlock_eq (ts : List Token) (i : Nat) :
    takeOutBlock ts i = ((blockLanding ts i).level, (blockLanding ts i).onward) := by
  unfold takeOutBlock blockLanding
  dsimp only
  split <;> split <;> rfl

theorem length_filterPlaces_take_succ (keep : Token → Nat → Bool) (h : i < ts.length) :
    (filterPlaces keep (ts.take (i + 1))).length
      = (filterPlaces keep (ts.take i)).length + if keep ts[i] i then 1 else 0 := by
  have hlength : (ts.take i).length = i := List.length_take_of_le (Nat.le_of_lt h)
  rw [List.take_add_one, List.getElem?_eq_getElem h, Option.toList_some, ← filterPlacesFrom_zero,
    ← filterPlacesFrom_zero, filterPlacesFrom_append, hlength, Nat.zero_add, List.length_append,
    filterPlacesFrom_cons]
  split <;> rfl

theorem takeOutAcross_eq (h : i < ts.length) (text : String) :
    takeOutAcross ts i text = ((acrossLanding ts i text).level, (acrossLanding ts i text).onward) := by
  unfold takeOutAcross acrossLanding
  cases placeFrom? endsAcross (i + 1) ts with
  | none => rfl
  | some j =>
    dsimp only
    generalize trimmedEnd (headOf text) = head
    generalize trimmedStart _ = tail
    show (filterPlaces (staysAcross ts i j head tail) (cutEnds ts i j head tail),
      (filterPlaces (staysAcross ts i j head tail) (ts.take (i + 1))).length) = _
    rw [length_filterPlaces_take_succ _ h, List.getElem?_eq_getElem h, Option.any_some,
      Cursor.onward]
    cases staysAcross ts i j head tail ts[i] i <;> simp

theorem visit_eq (h : i < ts.length) : visit ts i = ((landing ts i).level, (landing ts i).onward) := by
  have ht := List.getElem?_eq_getElem h
  rw [visit, landing, ht]
  dsimp only
  split
  · split
    · exact takeOutBlock_eq _ _
    · split
      · exact takeOutAcross_eq (by rwa [List.length_set]) _
      · rfl
  · rfl

end MarkdownPreview.Checked
