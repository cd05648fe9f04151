import MarkdownPreview.Proofs.Nesting.Partners

/-!
# Which token answers which

`pairs` finds partners by reading a level from the left with a stack of places. What it finds can be
said without the stack: a closing token answers an opening one before it just if what stands between
the two is balanced, where only the nesting of the tokens counts (`mem_pairs_iff`). So a token has the
partner that `partner?` gives it (`partner?_eq_some_iff`), and `canGo` lets just those tokens of a range
go that are self-contained, have no partner, or have theirs in the range too (`canGo_iff`).
-/

set_option autoImplicit false

namespace MarkdownPreview

variable {ts : List Token} {a b k start stop : Nat}

/-- A token as a bracket of which it does not matter what it opens or closes. -/
def Token.nestingBracket (t : Token) : Bracket Unit :=
  match t.nesting with
  | .opening => .opening ()
  | .closing => .closing ()
  | .selfClosing => .plain

/-- The closing token at `b` answers the opening one at `a`. -/
def Answers (ts : List Token) (a b : Nat) : Prop :=
  a < b ∧ ts[a]?.map Token.nesting = some .opening ∧ ts[b]?.map Token.nesting = some .closing
    ∧ Balanced ((ts.extract (a + 1) b).map Token.nestingBracket)

instance (ts : List Token) (a b : Nat) : Decidable (Answers ts a b) :=
  inferInstanceAs (Decidable (_ ∧ _ ∧ _ ∧ _))

/-- The tokens at two places belong together. -/
def Partners (ts : List Token) (a b : Nat) : Prop := Answers ts a b ∨ Answers ts b a

instance (ts : List Token) (a b : Nat) : Decidable (Partners ts a b) :=
  inferInstanceAs (Decidable (_ ∨ _))

/-! ## The token that answers, in a level split at both -/

theorem extract_between (pre : List Token) (t : Token) (mid : List Token) (u : Token)
    (post : List Token) :
    (pre ++ t :: (mid ++ u :: post)).extract (pre.length + 1) (pre.length + 1 + mid.length) = mid := by
  have hlength : pre.length + 1 + mid.length - (pre.length + 1) = mid.length := by omega
  rw [List.extract_eq_take_drop, hlength, ← List.drop_drop, List.drop_left, List.drop_succ_cons,
    List.drop_zero, List.take_left]

/-- An answer splits the level in what stands before, between and behind the two tokens. -/
theorem answers_iff_split : Answers ts a b ↔ ∃ pre t mid u post,
    ts = pre ++ t :: (mid ++ u :: post) ∧ a = pre.length ∧ b = pre.length + 1 + mid.length
      ∧ t.nesting = .opening ∧ u.nesting = .closing ∧ Balanced (mid.map Token.nestingBracket) := by
  constructor
  · rintro ⟨hab, ha, hb, hmid⟩
    obtain ⟨t, ht, hopen⟩ := Option.map_eq_some_iff.mp ha
    obtain ⟨u, hu, hclose⟩ := Option.map_eq_some_iff.mp hb
    obtain ⟨halt, hat⟩ := List.getElem?_eq_some_iff.mp ht
    obtain ⟨hblt, hbu⟩ := List.getElem?_eq_some_iff.mp hu
    have hbehind : ts.drop (a + 1) = ts.extract (a + 1) b ++ u :: ts.drop (b + 1) := by
      have hplace : a + 1 + (b - (a + 1)) = b := by omega
      rw [List.extract_eq_take_drop, ← hbu, ← List.drop_eq_getElem_cons hblt]
      conv_lhs => rw [← List.take_append_drop (b - (a + 1)) (ts.drop (a + 1)), List.drop_drop, hplace]
    refine ⟨ts.take a, t, ts.extract (a + 1) b, u, ts.drop (b + 1), ?_, ?_, ?_, hopen, hclose, hmid⟩
    · rw [← hbehind, ← hat, ← List.drop_eq_getElem_cons halt, List.take_append_drop]
    · rw [List.length_take_of_le (Nat.le_of_lt halt)]
    · rw [List.length_take_of_le (Nat.le_of_lt halt), List.extract_eq_take_drop, List.length_take,
        List.length_drop]
      omega
  · rintro ⟨pre, t, mid, u, post, rfl, rfl, rfl, hopen, hclose, hmid⟩
    refine ⟨by omega, ?_, ?_, ?_⟩
    · rw [List.getElem?_append_right (Nat.le_refl _), Nat.sub_self, List.getElem?_cons_zero,
        Option.map_some, hopen]
    · have hplace : pre.length + 1 + mid.length - pre.length = mid.length + 1 := by omega
      rw [List.getElem?_append_right (by omega), hplace, List.getElem?_cons_succ,
        List.getElem?_append_right (Nat.le_refl _), Nat.sub_self, List.getElem?_cons_zero,
        Option.map_some, hclose]
    · rwa [extract_between]

/-! ## What the stack holds -/

/-- The places that wait for an answer after the tokens from place `i` on, as `pairsFrom` reads
them. -/
def unansweredAfter : (i : Nat) → (unanswered : List Nat) → List Token → List Nat
  | _, unanswered, [] => unanswered
  | i, unanswered, t :: ts =>
    match t.nesting, unanswered with
    | .opening, _ => unansweredAfter (i + 1) (i :: unanswered) ts
    | .closing, _ :: rest => unansweredAfter (i + 1) rest ts
    | .closing, [] => unansweredAfter (i + 1) [] ts
    | .selfClosing, _ => unansweredAfter (i + 1) unanswered ts

theorem pairsFrom_append : ∀ (i : Nat) (unanswered : List Nat) (ts us : List Token),
    pairsFrom i unanswered (ts ++ us) = pairsFrom i unanswered ts
      ++ pairsFrom (i + ts.length) (unansweredAfter i unanswered ts) us
  | i, unanswered, [], us => rfl
  | i, unanswered, t :: ts, us => by
    have hplace : i + (ts.length + 1) = i + 1 + ts.length := by omega
    rw [List.cons_append, List.length_cons, hplace]
    cases hn : t.nesting with
    | opening =>
      simp only [pairsFrom, unansweredAfter, hn]
      exact pairsFrom_append (i + 1) (i :: unanswered) ts us
    | selfClosing =>
      simp only [pairsFrom, unansweredAfter, hn]
      exact pairsFrom_append (i + 1) unanswered ts us
    | closing =>
      cases unanswered with
      | nil =>
        simp only [pairsFrom, unansweredAfter, hn]
        exact pairsFrom_append (i + 1) [] ts us
      | cons j rest =>
        simp only [pairsFrom, unansweredAfter, hn, List.cons_append]
        rw [pairsFrom_append (i + 1) rest ts us]

/-- Where a word of brackets can be read with `upper` waiting, the stack below is not touched. -/
theorem unansweredAfter_of_waitingAfter : ∀ (i : Nat) (ts : List Token) (upper below : List Nat),
    waitingAfter (upper.map fun _ => ()) (ts.map Token.nestingBracket) = some [] →
      unansweredAfter i (upper ++ below) ts = below
  | _, [], upper, below, h => by
    have hupper : upper = [] := List.map_eq_nil_iff.mp (Option.some.inj h)
    rw [hupper]
    rfl
  | i, t :: ts, upper, below, h => by
    rw [List.map_cons] at h
    cases hn : t.nesting with
    | opening =>
      simp only [Token.nestingBracket, hn, waitingAfter_opening] at h
      simp only [unansweredAfter, hn]
      exact unansweredAfter_of_waitingAfter (i + 1) ts (i :: upper) below h
    | selfClosing =>
      simp only [Token.nestingBracket, hn, waitingAfter_plain] at h
      simp only [unansweredAfter, hn]
      exact unansweredAfter_of_waitingAfter (i + 1) ts upper below h
    | closing =>
      cases upper with
      | nil =>
        simp only [Token.nestingBracket, hn] at h
        cases h
      | cons j upper =>
        simp only [Token.nestingBracket, hn, List.map_cons, waitingAfter_closing, if_true] at h
        simp only [unansweredAfter, hn, List.cons_append]
        exact unansweredAfter_of_waitingAfter (i + 1) ts upper below h

/-- Where the token at `b` answers what `pairsFrom` found: either a place that waited before, after
all that waited above it, or a token on the way. -/
structure Closes (i : Nat) (unanswered : List Nat) (ts : List Token) (a b : Nat) (mid : List Token)
    (u : Token) (post : List Token) : Prop where
  split : ts = mid ++ u :: post
  place : b = i + mid.length
  closing : u.nesting = .closing
  answered :
    (∃ upper below, unanswered = upper ++ a :: below
      ∧ waitingAfter (upper.map fun _ => ()) (mid.map Token.nestingBracket) = some [])
    ∨ ∃ pre t mid', mid = pre ++ t :: mid' ∧ a = i + pre.length ∧ t.nesting = .opening
      ∧ Balanced (mid'.map Token.nestingBracket)

theorem exists_closes : ∀ {i : Nat} {unanswered : List Nat} {ts : List Token},
    (a, b) ∈ pairsFrom i unanswered ts → ∃ mid u post, Closes i unanswered ts a b mid u post
  | _, _, [], h => nomatch h
  | i, unanswered, t :: ts, h => by
    -- One token more on the way leaves what is answered there as it is.
    have hlater {unanswered' : List Nat} {mid : List Token} {u : Token} {post : List Token}
        (hc : Closes (i + 1) unanswered' ts a b mid u post)
        (hwaiting : ∀ upper below, unanswered' = upper ++ a :: below →
          waitingAfter (upper.map fun _ => ()) (mid.map Token.nestingBracket) = some [] →
            (∃ upper below, unanswered = upper ++ a :: below
              ∧ waitingAfter (upper.map fun _ => ()) ((t :: mid).map Token.nestingBracket) = some [])
            ∨ ∃ pre v mid', t :: mid = pre ++ v :: mid' ∧ a = i + pre.length ∧ v.nesting = .opening
              ∧ Balanced (mid'.map Token.nestingBracket)) :
        ∃ mid u post, Closes i unanswered (t :: ts) a b mid u post := by
      obtain ⟨hsplit, hplace, hclosing, hanswered⟩ := hc
      refine ⟨t :: mid, u, post, by rw [hsplit]; rfl, by rw [hplace, List.length_cons]; omega,
        hclosing, ?_⟩
      rcases hanswered with ⟨upper, below, heq, hw⟩ | ⟨pre, v, mid', hmid, ha, hopen, hb⟩
      · exact hwaiting upper below heq hw
      · exact .inr ⟨t :: pre, v, mid', by rw [hmid]; rfl, by rw [ha, List.length_cons]; omega, hopen,
          hb⟩
    cases hn : t.nesting with
    | opening =>
      simp only [pairsFrom, hn] at h
      obtain ⟨mid, u, post, hc⟩ := exists_closes h
      refine hlater hc fun upper below heq hw => ?_
      cases upper with
      | nil =>
        obtain ⟨rfl, -⟩ := List.cons.inj heq
        exact .inr ⟨[], t, mid, rfl, rfl, hn, hw⟩
      | cons j upper =>
        obtain ⟨rfl, rfl⟩ := List.cons.inj heq
        refine .inl ⟨upper, below, rfl, ?_⟩
        simp only [List.map_cons, Token.nestingBracket, hn, waitingAfter_opening]
        exact hw
    | selfClosing =>
      simp only [pairsFrom, hn] at h
      obtain ⟨mid, u, post, hc⟩ := exists_closes h
      refine hlater hc fun upper below heq hw => .inl ⟨upper, below, heq, ?_⟩
      simp only [List.map_cons, Token.nestingBracket, hn, waitingAfter_plain]
      exact hw
    | closing =>
      cases unanswered with
      | nil =>
        simp only [pairsFrom, hn] at h
        obtain ⟨mid, u, post, hc⟩ := exists_closes h
        exact hlater hc fun upper below heq => by simp at heq
      | cons j rest =>
        simp only [pairsFrom, hn, List.mem_cons, Prod.mk.injEq] at h
        rcases h with ⟨rfl, rfl⟩ | h
        · exact ⟨[], t, ts, rfl, rfl, hn, .inl ⟨[], rest, rfl, rfl⟩⟩
        · obtain ⟨mid, u, post, hc⟩ := exists_closes h
          refine hlater hc fun upper below heq hw => .inl ⟨j :: upper, below, by rw [heq]; rfl, ?_⟩
          simp only [List.map_cons, Token.nestingBracket, hn, waitingAfter_closing, if_true]
          exact hw

/-! ## Partners -/

/-- **`pairs` finds every answer, and nothing else.** -/
theorem mem_pairs_iff : (a, b) ∈ pairs ts ↔ Answers ts a b := by
  rw [answers_iff_split]
  constructor
  · intro h
    obtain ⟨mid, u, post, hsplit, hplace, hclosing, hanswered⟩ := exists_closes h
    rcases hanswered with ⟨upper, below, heq, -⟩ | ⟨pre, t, mid', hmid, ha, hopen, hb⟩
    · simp at heq
    · refine ⟨pre, t, mid', u, post, ?_, by rw [ha, Nat.zero_add], ?_, hopen, hclosing, hb⟩
      · rw [hsplit, hmid, List.append_assoc, List.cons_append]
      · rw [hplace, hmid, List.length_append, List.length_cons]
        omega
  · rintro ⟨pre, t, mid, u, post, rfl, rfl, rfl, hopen, hclose, hmid⟩
    generalize hstack : unansweredAfter 0 [] pre = below
    have hkept : unansweredAfter (pre.length + 1) (pre.length :: below) mid = pre.length :: below :=
      unansweredAfter_of_waitingAfter (pre.length + 1) mid [] (pre.length :: below) hmid
    rw [pairs, pairsFrom_append, hstack, Nat.zero_add]
    refine List.mem_append_right _ ?_
    simp only [pairsFrom, hopen]
    rw [pairsFrom_append, hkept]
    refine List.mem_append_right _ ?_
    simp only [pairsFrom, hclose]
    exact List.mem_cons_self

theorem partner?_eq_some_iff : partner? (pairs ts) a = some b ↔ Partners ts a b := by
  have hnodup : (pairPlaces (pairs ts)).Nodup := (List.nodup_append.mp (places_nodup ts)).2.1
  rw [Partners, ← mem_pairs_iff, ← mem_pairs_iff]
  constructor
  · intro h
    obtain ⟨⟨c, d⟩, hcd, hfound⟩ := List.exists_of_findSome?_eq_some h
    dsimp only at hfound
    split at hfound
    · rename_i hca
      cases hfound
      exact .inl (hca ▸ hcd)
    · split at hfound
      · rename_i hda
        cases hfound
        exact .inr (hda ▸ hcd)
      · cases hfound
  · rintro (h | h)
    · exact (partner?_of_mem hnodup h).1
    · exact (partner?_of_mem hnodup h).2

theorem partner?_eq_none_iff : partner? (pairs ts) a = none ↔ ∀ b, ¬ Partners ts a b := by
  rw [Option.eq_none_iff_forall_ne_some]
  exact forall_congr' fun b => not_congr partner?_eq_some_iff

theorem Partners.lt_length (h : Partners ts a b) : b < ts.length := by
  have hplace {k : Nat} {n : Nesting} (hk : ts[k]?.map Token.nesting = some n) : k < ts.length := by
    obtain ⟨t, ht, -⟩ := Option.map_eq_some_iff.mp hk
    exact (List.getElem?_eq_some_iff.mp ht).1
  rcases h with ⟨-, -, hb, -⟩ | ⟨-, hb, -, -⟩
  · exact hplace hb
  · exact hplace hb

/-! ## What can go from a range -/

/-- The token at `k` goes when a range is taken out of a level: it is in the range, and it is
self-contained, or has no partner, or its partner is in the range too. -/
def Goes (ts : List Token) (start stop k : Nat) : Prop :=
  (start ≤ k ∧ k < stop) ∧ (ts[k]?.map Token.nesting = some .selfClosing
    ∨ (∀ j < ts.length, ¬ Partners ts k j) ∨ ∃ j < stop, start ≤ j ∧ Partners ts k j)

instance (ts : List Token) (start stop k : Nat) : Decidable (Goes ts start stop k) :=
  inferInstanceAs (Decidable ((_ ∧ _) ∧ (_ ∨ _ ∨ _)))

theorem canGo_iff {t : Token} (ht : ts[k]?.map Token.nesting = some t.nesting) :
    canGo (pairs ts) start stop t k = true ↔ Goes ts start stop k := by
  rw [Goes, ht, Option.some.injEq, canGo, Bool.and_eq_true, Bool.and_eq_true, Bool.or_eq_true,
    decide_eq_true_eq, decide_eq_true_eq, beq_iff_eq]
  refine and_congr_right fun _ => or_congr_right ?_
  cases hpartner : partner? (pairs ts) k with
  | none =>
    have hnone := partner?_eq_none_iff.mp hpartner
    exact iff_of_true rfl (.inl fun j _ => hnone j)
  | some j =>
    have hj : Partners ts k j := partner?_eq_some_iff.mp hpartner
    rw [Bool.and_eq_true, decide_eq_true_eq, decide_eq_true_eq]
    constructor
    · exact fun h => .inr ⟨j, h.2, h.1, hj⟩
    · rintro (h | ⟨j', hstop, hstart, hj'⟩)
      · exact absurd hj (h j hj.lt_length)
      · have heq : j' = j := Option.some.inj ((partner?_eq_some_iff.mpr hj').symm.trans hpartner)
        exact heq ▸ ⟨hstart, hstop⟩

end MarkdownPreview
