import MarkdownPreview.Proofs.Checked.Visit
import MarkdownPreview.Proofs.Nesting.Answers

/-!
# A comment over several blocks

A comment that starts in the text of one block and ends in that of a later one is taken out with what
lies between. Here that is said place by place, without the stack and the cursor that find it out: the
range that the comment covers (`Covers`), the tokens of it that go (`Goes`), the texts at its two ends,
of which something may stay, and the place where the visits go on (`SpanGone`). The library and the
cursor do just that (`takeOutAcross_spans`).

Texts are cut before any token goes, and cutting a token leaves its nesting, so it does not matter that
the partners are those of the level as it was.
-/

set_option autoImplicit false

namespace MarkdownPreview.Comment

open Text Checked

variable {ts : List Token} {i e start stop : Nat} {t u : Token} {head tail after : String}

/-! ## What a comment covers -/

/-- The text `u` at `e` is the first one behind `i` in which a comment ends, and `after` is what
follows the first end of a comment in it. -/
structure FirstEnd (ts : List Token) (i e : Nat) (u : Token) (after : String) : Prop where
  behind : i < e
  here : ts[e]? = some u
  inline : u.kind = .inline
  ends : afterEnd? (readable u) = some after
  first : ∀ j v, i < j → j < e → ts[j]? = some v → v.kind = .inline → hasEnd (readable v) = false

/-- The range of places from `start` up to `stop` that a comment covers, where `head` stays of the
text at `i` and `tail` of the text at `e`. A text of which nothing stays lies in the range, with the
paragraph's token that stands directly around it on that side. -/
structure Covers (ts : List Token) (i e : Nat) (head tail : String) (start stop : Nat) : Prop where
  start_behind : head ≠ "" → start = i + 1
  start_paragraph : head = "" → 0 < i →
    ts[i - 1]?.map Token.kind = some (.opening .paragraph) → start = i - 1
  start_here : head = "" →
    (0 < i → ts[i - 1]?.map Token.kind ≠ some (.opening .paragraph)) → start = i
  stop_before : tail ≠ "" → stop = e
  stop_paragraph : tail = "" → ts[e + 1]?.map Token.kind = some (.closing .paragraph) → stop = e + 2
  stop_here : tail = "" → ts[e + 1]?.map Token.kind ≠ some (.closing .paragraph) → stop = e + 1

theorem isAt_iff {k : Nat} {kind : Kind} :
    isAt ts k kind = true ↔ ts[k]?.map Token.kind = some kind := by
  rw [isAt]
  cases ts[k]? <;> simp

theorem isBefore_iff {k : Nat} {kind : Kind} :
    isBefore ts k kind = true ↔ 0 < k ∧ ts[k - 1]?.map Token.kind = some kind := by
  rw [isBefore, Bool.and_eq_true, bne_iff_ne, isAt_iff, Nat.pos_iff_ne_zero]

theorem covers_coveredRange (ts : List Token) (i e : Nat) (head tail : String) :
    Covers ts i e head tail (coveredRange ts i e head tail).1 (coveredRange ts i e head tail).2 where
  start_behind h := by simp [coveredRange, h]
  start_paragraph h hi hp := by
    have hbefore := isBefore_iff.mpr ⟨hi, hp⟩
    simp [coveredRange, h, hbefore]
  start_here h hp := by
    have hbefore : ¬ isBefore ts i (.opening .paragraph) = true :=
      fun hb => hp (isBefore_iff.mp hb).1 (isBefore_iff.mp hb).2
    simp [coveredRange, h, hbefore]
  stop_before h := by simp [coveredRange, h]
  stop_paragraph h hp := by simp [coveredRange, h, isAt_iff.mpr hp]
  stop_here h hp := by
    have hat : ¬ isAt ts (e + 1) (.closing .paragraph) = true := fun ha => hp (isAt_iff.mp ha)
    simp [coveredRange, h, hat]

/-! ## Places of what stays -/

/-- How many of the tokens before place `n` stay when a range is taken out. -/
def stayingBefore (ts : List Token) (start stop n : Nat) : Nat :=
  ((List.range n).filter fun k => !decide (Goes ts start stop k)).length

theorem stayingBefore_mono {m n : Nat} (h : m ≤ n) :
    stayingBefore ts start stop m ≤ stayingBefore ts start stop n :=
  ((List.range_sublist.mpr h).filter _).length_le

theorem length_filterPlaces_take (keep : Nat → Bool) {us : List Token} {n : Nat}
    (h : n ≤ us.length) : (filterPlaces (fun _ k => keep k) (us.take n)).length
      = ((List.range n).filter keep).length := by
  induction n with
  | zero => rfl
  | succ n ih =>
    rw [length_filterPlaces_take_succ _ h, ih (Nat.le_of_succ_le h), List.range_succ,
      List.filter_append, List.length_append, List.filter_singleton]
    cases keep n <;> rfl

theorem getElem?_filterPlaces (keep : Token → Nat → Bool) {us : List Token} {n : Nat}
    (hu : us[n]? = some u) (hkeep : keep u n = true) :
    (filterPlaces keep us)[(filterPlaces keep (us.take n)).length]? = some u := by
  obtain ⟨front, v, back, rfl, rfl⟩ := exists_split (List.getElem?_eq_some_iff.mp hu).1
  obtain rfl : v = u := by simpa using hu
  rw [List.take_left, ← filterPlacesFrom_zero, ← filterPlacesFrom_zero, filterPlacesFrom_append,
    Nat.zero_add, filterPlacesFrom_cons, if_pos hkeep, List.getElem?_append_right (Nat.le_refl _),
    Nat.sub_self, List.getElem?_cons_zero]

/-! ## What is left of the level -/

/-- The text in which a comment starts, with what stays of it. -/
def opener (head : String) (t : Token) : Token :=
  if head = "" then t
  else { t with content := head, children := t.children.map childrenBefore }

/-- The text in which a comment ends, with what stays of it. -/
def closer (tail : String) (u : Token) : Token :=
  if tail = "" then u
  else { u with content := tail, children := u.children.map childrenAfter }

theorem cutHead_eq_opener (head : String) : cutHead head = opener head := by
  funext t
  simp only [cutHead, opener, String.isEmpty_iff]

theorem cutTail_eq_closer (tail : String) : cutTail tail = closer tail := by
  funext u
  simp only [cutTail, closer, String.isEmpty_iff]

/-- A level without what a comment covers from the text `t` at `i` to the text `u` at `e`, and the
cursor of the visit to `t` after that. -/
structure SpanGone (ts : List Token) (i : Nat) (t : Token) (e : Nat) (u : Token) (head tail : String)
    (start stop : Nat) (c : Cursor Token) : Prop where
  level : c.level = filterPlaces (fun _ k => !decide (Goes ts start stop k))
    ((ts.set e (closer tail u)).set i (opener head t))
  removed : c.removed = decide (Goes ts start stop i)
  next : c.next? .forward = some (stayingBefore ts start stop (i + 1))
  closer_ahead : tail ≠ "" →
    stayingBefore ts start stop (i + 1) ≤ stayingBefore ts start stop e
      ∧ c.level[stayingBefore ts start stop e]? = some (closer tail u)

theorem cutEnds_eq (head tail : String) (hie : i < e) (ht : ts[i]? = some t)
    (hu : ts[e]? = some u) :
    cutEnds ts i e head tail = (ts.set e (closer tail u)).set i (opener head t) := by
  have ht' : (ts.set e (closer tail u))[i]? = some t := by
    rwa [List.getElem?_set_ne (Nat.ne_of_gt hie)]
  rw [cutEnds, cutHead_eq_opener, cutTail_eq_closer, ← set_eq_modify _ hu, ← set_eq_modify _ ht']

/-- What stays, told by the nestings of the level as it was. -/
theorem staysAcross_eq (ts : List Token) (i e : Nat) (head tail : String) {k : Nat} {v : Token}
    (hv : ts[k]?.map Token.nesting = some v.nesting) :
    staysAcross ts i e head tail v k = !decide
      (Goes ts (coveredRange ts i e head tail).1 (coveredRange ts i e head tail).2 k) := by
  rw [staysAcross]
  congr 1
  rw [Bool.eq_iff_iff, decide_eq_true_iff]
  exact canGo_iff hv

theorem filterPlaces_staysAcross (ts : List Token) (i e : Nat) (head tail : String) (us : List Token)
    (h : ∀ (k : Nat) (v : Token), us[k]? = some v → ts[k]?.map Token.nesting = some v.nesting) :
    filterPlaces (staysAcross ts i e head tail) us = filterPlaces (fun _ k => !decide
      (Goes ts (coveredRange ts i e head tail).1 (coveredRange ts i e head tail).2 k)) us := by
  rw [← filterPlacesFrom_zero, ← filterPlacesFrom_zero]
  refine filterPlacesFrom_congr fun k v hv => ?_
  rw [Nat.zero_add]
  exact staysAcross_eq ts i e head tail (h k v hv)

theorem FirstEnd.placeFrom?_eq (h : FirstEnd ts i e u after) :
    placeFrom? endsAcross (i + 1) ts = some e := by
  obtain ⟨hie, hu, hk, hends, hfirst⟩ := h
  have hend : hasEnd (readable u) = true := by
    obtain ⟨pair, hpair, -⟩ := Option.map_eq_some_iff.mp hends
    rw [hasEnd, hpair, Option.isSome_some]
  have hcross : endsAcross u = true := by rw [endsAcross, hk, hend]; rfl
  have hplace : i + 1 + (e - (i + 1)) = e := by omega
  have hdrop : (ts.drop (i + 1))[e - (i + 1)]? = some u := by
    rw [List.getElem?_drop, hplace]
    exact hu
  obtain ⟨hlt, hat⟩ := List.getElem?_eq_some_iff.mp hdrop
  rw [placeFrom?, Option.map_eq_some_iff]
  refine ⟨e - (i + 1), List.findIdx?_eq_some_iff_getElem.mpr ⟨hlt, by rwa [hat], ?_⟩, by omega⟩
  intro j hj
  have hjlt : j < (ts.drop (i + 1)).length := Nat.lt_trans hj hlt
  have hget : ts[i + 1 + j]? = some (ts.drop (i + 1))[j] := by
    rw [← List.getElem?_drop, List.getElem?_eq_getElem hjlt]
  rw [endsAcross, Bool.and_eq_true, beq_iff_eq]
  rintro ⟨hkind, hends'⟩
  rw [hfirst (i + 1 + j) _ (by omega) (by omega) hget hkind] at hends'
  cases hends'

theorem placeFrom?_endsAcross_eq_none
    (h : ∀ j v, i < j → ts[j]? = some v → v.kind = .inline → hasEnd (readable v) = false) :
    placeFrom? endsAcross (i + 1) ts = none := by
  rw [placeFrom?_eq_none_iff]
  intro j v hij hv
  rw [endsAcross, Bool.and_eq_false_iff, beq_eq_false_iff_ne]
  exact Decidable.or_iff_not_imp_left.mpr fun hk => h j v hij hv (Decidable.not_not.mp hk)

/-- The cursor after a comment over several blocks has been taken out, told by what goes. -/
theorem acrossLanding_eq (ht : ts[i]? = some t) (hend : FirstEnd ts i e u after) {text : String}
    (hhead : trimmedEnd (headOf text) = head) (htail : trimmedStart after = tail)
    (hrange : coveredRange ts i e head tail = (start, stop)) : acrossLanding ts i text
      = { level := filterPlaces (fun _ k => !decide (Goes ts start stop k)) (cutEnds ts i e head tail)
          index := stayingBefore ts start stop i
          removed := decide (Goes ts start stop i) } := by
  have hlt := (List.getElem?_eq_some_iff.mp ht).1
  have htailOf : (ts[e]?.map fun t => tailOf (readable t)).getD "" = after := by
    rw [hend.here, Option.map_some, Option.getD_some, tailOf, hend.ends, Option.getD_some]
  have hlevel := filterPlaces_staysAcross ts i e head tail (cutEnds ts i e head tail)
    fun k v hv => by
      obtain ⟨w, hw, hn⟩ := nesting_cutEnds hv
      rw [hw, Option.map_some, hn]
  have hfront := filterPlaces_staysAcross ts i e head tail (ts.take i) fun k v hv => by
    have hk : k < i := by
      have hklt := (List.getElem?_eq_some_iff.mp hv).1
      rw [List.length_take] at hklt
      omega
    rw [List.getElem?_take_of_lt hk] at hv
    rw [hv, Option.map_some]
  have hhere := staysAcross_eq ts i e head tail (k := i) (v := t) (by rw [ht, Option.map_some])
  rw [hrange] at hlevel hfront hhere
  rw [acrossLanding, hend.placeFrom?_eq]
  simp only [htailOf, hhead, htail]
  rw [hlevel, hfront, ht, Option.any_some, hhere, Bool.not_not, stayingBefore,
    length_filterPlaces_take (fun k => !decide (Goes ts start stop k)) (Nat.le_of_lt hlt)]

theorem stayingBefore_succ (ts : List Token) (start stop n : Nat) :
    stayingBefore ts start stop (n + 1)
      = stayingBefore ts start stop n + if Goes ts start stop n then 0 else 1 := by
  rw [stayingBefore, stayingBefore, List.range_succ, List.filter_append, List.length_append,
    List.filter_singleton]
  by_cases h : Goes ts start stop n
  · simp [h]
  · simp [h]

theorem spanGone_acrossLanding (ht : ts[i]? = some t) (hend : FirstEnd ts i e u after) {text : String}
    (hhead : trimmedEnd (headOf text) = head) (htail : trimmedStart after = tail)
    (hrange : coveredRange ts i e head tail = (start, stop)) :
    SpanGone ts i t e u head tail start stop (acrossLanding ts i text) := by
  have hie := hend.behind
  have helt : e < ts.length := (List.getElem?_eq_some_iff.mp hend.here).1
  have hcut := cutEnds_eq head tail hie ht hend.here
  rw [acrossLanding_eq ht hend hhead htail hrange]
  refine ⟨by rw [hcut], rfl, ?_, fun hne => ⟨stayingBefore_mono hie, ?_⟩⟩
  · -- The next place is the one behind the text, or the text's own if it is gone.
    rw [Cursor.next?_eq_onward rfl, Cursor.onward, stayingBefore_succ]
    by_cases hgone : Goes ts start stop i
    · simp [hgone]
    · simp [hgone]
  · have hat : (cutEnds ts i e head tail)[e]? = some (closer tail u) := by
      rw [hcut, List.getElem?_set_ne (Nat.ne_of_lt hie), List.getElem?_set_self helt]
    have hstays : (!decide (Goes ts start stop e)) = true := by
      have hcovers := covers_coveredRange ts i e head tail
      rw [hrange] at hcovers
      have hstop := hcovers.stop_before hne
      have hnot : ¬ Goes ts start stop e := fun hgoes => absurd hgoes.1.2 (by omega)
      simpa using hnot
    have hplace := getElem?_filterPlaces (fun _ k => !decide (Goes ts start stop k)) hat hstays
    rwa [length_filterPlaces_take (fun k => !decide (Goes ts start stop k))
      (by rw [length_cutEnds]; exact Nat.le_of_lt helt)] at hplace

/-- **What becomes of a level in which a text leaves a comment open**: nothing, if no later text ends
it; else the first that does is found, and the level loses what the comment covers from the one to the
other. No place that is looked up on the way is missing. -/
theorem takeOutAcross_spans (ts : List Token) (i : Nat) (t : Token) (before : String)
    (ht : ts[i]? = some t) (hopen : beforeDangling? (readable t) = some before) :
    ((∀ j v, i < j → ts[j]? = some v → v.kind = .inline → hasEnd (readable v) = false) →
        takeOutAcross? { level := ts, index := i } (readable t) = some { level := ts, index := i }
          ∧ takeOutAcross ts i (readable t) = (ts, i + 1))
      ∧ ∀ e u after, FirstEnd ts i e u after →
        ∃ start stop c,
          Covers ts i e (trimmedEnd before) (trimmedStart after) start stop
            ∧ SpanGone ts i t e u (trimmedEnd before) (trimmedStart after) start stop c
            ∧ takeOutAcross? { level := ts, index := i } (readable t) = some c
            ∧ takeOutAcross ts i (readable t) = (c.level, stayingBefore ts start stop (i + 1)) := by
  have hlt := (List.getElem?_eq_some_iff.mp ht).1
  constructor
  · intro hnone
    have hlanding : acrossLanding ts i (readable t) = { level := ts, index := i } := by
      rw [acrossLanding, placeFrom?_endsAcross_eq_none hnone]
    rw [takeOutAcross?_eq hlt, takeOutAcross_eq hlt, hlanding]
    exact ⟨rfl, rfl⟩
  · intro e u after hend
    have hhead : trimmedEnd (headOf (readable t)) = trimmedEnd before := by
      rw [headOf, hopen, Option.getD_some]
    have hcovers := covers_coveredRange ts i e (trimmedEnd before) (trimmedStart after)
    generalize hrange : coveredRange ts i e (trimmedEnd before) (trimmedStart after) = range at hcovers
    obtain ⟨start, stop⟩ := range
    have hgone := spanGone_acrossLanding ht hend hhead rfl hrange
    have hnext := hgone.next
    rw [Cursor.next?_eq_onward (by rw [acrossLanding, hend.placeFrom?_eq]), Option.some.injEq] at hnext
    refine ⟨start, stop, acrossLanding ts i (readable t), hcovers, hgone, takeOutAcross?_eq hlt _, ?_⟩
    rw [takeOutAcross_eq hlt, hnext]

/-- From within a quote to the paragraph behind it: the paragraph between goes, the end of the quote
stays, and the next text to look at is the one in which the comment ended. -/
theorem takeOutAcross_spans_quote :
    let p := Token.ofBlock (.opening .paragraph) "p" .opening
    let p' := Token.ofBlock (.closing .paragraph) "p" .closing
    let q := Token.ofBlock (.opening .blockquote) "blockquote" .opening
    let q' := Token.ofBlock (.closing .blockquote) "blockquote" .closing
    let t := Token.inline "a &lt;!-- b" [.text "a <!-- b"]
    let u := Token.inline "c --> d" [.text "c --> d"]
    let ts := [q, p, t, p', p, .inline "x" [.text "x"], p', q', p, u, p']
    FirstEnd ts 2 9 u " d" ∧ ∃ start stop c,
      Covers ts 2 9 "a" "d" start stop ∧ SpanGone ts 2 t 9 u "a" "d" start stop c
        ∧ takeOutAcross? { level := ts, index := 2 } (readable t) = some c
        ∧ c.level = [q, p, .inline "a" [.text "a"], p', q', p, .inline "d" [.text "d"], p'] := by
  intro p p' q q' t u ts
  have hend : FirstEnd ts 2 9 u " d" := by
    refine ⟨by decide, rfl, rfl, by decide +kernel, fun j v hlo hhi hv hk => ?_⟩
    have hx : v.kind = .inline → v = .inline "x" [.text "x"] := by
      obtain rfl | rfl | rfl | rfl | rfl | rfl :
        j = 3 ∨ j = 4 ∨ j = 5 ∨ j = 6 ∨ j = 7 ∨ j = 8 := by omega
      all_goals
        obtain rfl := Option.some.inj hv
        intro hinline
        first | rfl | cases hinline
    rw [hx hk]
    decide +kernel
  have hlibrary : (takeOutAcross ts 2 (readable t)).1
      = [q, p, .inline "a" [.text "a"], p', q', p, .inline "d" [.text "d"], p'] := by decide +kernel
  obtain ⟨start, stop, c, hcovers, hgone, hc, heq⟩ :=
    (takeOutAcross_spans ts 2 t "a " rfl (by decide +kernel)).2 9 u " d" hend
  have hhead : trimmedEnd "a " = "a" := by decide +kernel
  have htail : trimmedStart " d" = "d" := by decide +kernel
  rw [hhead, htail] at hcovers hgone
  rw [heq] at hlibrary
  exact ⟨hend, start, stop, c, hcovers, hgone, hc, hlibrary⟩

end MarkdownPreview.Comment
