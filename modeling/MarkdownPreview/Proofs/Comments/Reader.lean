import MarkdownPreview.Proofs.Comments.Reaction

/-!
# Reading past comments

A reader who leaves the comments of a text out goes from mark to mark: outside of a comment past the
next `<!--`, inside of one past the next `-->`. If the text ends inside of a comment, that one is left
open, and what stands before it is what the reader has seen outside of comments (`leftOpen?`).

The library does not go through a text that way. It takes the complete comments out and looks for a
`<!--` in what is left. What is left is all that is outside of comments, with the comment left open
behind it (`remove_eq_outside`), so the two agree unless closing up has put a `<!--` together of what is
outside of comments. Such a mark is taken for the start of a comment that nothing ends
(`beforeDangling?_read`): in `<!<!-- x -->--` every comment is ended, and still one is found open
(`opens_closedUp`).

What the reader has seen and what taking out leaves of the rest are together the same before and after
every step (`left_step`), and the agreement at the end of the text follows from that.
-/

set_option autoImplicit false

namespace MarkdownPreview.Comment

open Text

variable {cs xs ys before after : List Char} {text : String}

/-! ## The reader -/

/-- A place in a text, and what has been seen outside of comments on the way to it. -/
structure Reader where
  inside : Bool
  seen : List Char
  ahead : List Char
  deriving Repr, DecidableEq

namespace Reader

variable {r s : Reader}

/-- Goes past the next mark. The two marks of a comment have no character in common: its end is looked
for behind its start. -/
def step? (r : Reader) : Option Reader :=
  if r.inside then (cut? endMark r.ahead).map fun (_, after) => ⟨false, r.seen, after⟩
  else (cut? startMark r.ahead).map fun (before, after) => ⟨true, r.seen ++ before, after⟩

theorem step_cases (h : r.step? = some s) :
    (∃ seen ahead before after, cut? startMark ahead = some (before, after)
        ∧ r = ⟨false, seen, ahead⟩ ∧ s = ⟨true, seen ++ before, after⟩)
      ∨ ∃ seen ahead body after, cut? endMark ahead = some (body, after)
        ∧ r = ⟨true, seen, ahead⟩ ∧ s = ⟨false, seen, after⟩ := by
  obtain ⟨inside, seen, ahead⟩ := r
  cases inside with
  | false =>
    obtain ⟨⟨before, after⟩, hcut, rfl⟩ := Option.map_eq_some_iff.mp h
    exact .inl ⟨seen, ahead, before, after, hcut, rfl, rfl⟩
  | true =>
    obtain ⟨⟨body, after⟩, hcut, rfl⟩ := Option.map_eq_some_iff.mp h
    exact .inr ⟨seen, ahead, body, after, hcut, rfl, rfl⟩

theorem length_ahead_step (h : r.step? = some s) : s.ahead.length < r.ahead.length := by
  obtain ⟨seen, ahead, before, after, hcut, rfl, rfl⟩ | ⟨seen, ahead, body, after, hcut, rfl, rfl⟩ :=
    step_cases h
  all_goals
    have hlen := congrArg List.length (append_of_cut?_eq_some hcut)
    simp only [startMark, endMark, List.length_append, List.length_cons] at hlen
    dsimp only
    omega

/-- Goes on until there is no next mark. -/
def run (r : Reader) : Reader :=
  match _h : r.step? with
  | none => r
  | some s => s.run
termination_by r.ahead.length
decreasing_by exact length_ahead_step ‹_›

theorem run_of_none (h : r.step? = none) : r.run = r := by
  rw [run, h]

theorem run_of_some (h : r.step? = some s) : r.run = s.run := by
  rw [run, h]

/-- What every step keeps holds at the end, where no step can be made. -/
theorem run_keeps {P : Reader → Prop} (hstep : ∀ {r s}, r.step? = some s → P r → P s) (h : P r) :
    P r.run ∧ r.run.step? = none := by
  induction r using run.induct with
  | case1 r hnone =>
    rw [run_of_none hnone]
    exact ⟨h, hnone⟩
  | case2 r s hsome ih =>
    rw [run_of_some hsome]
    exact ih (hstep hsome h)

/-- All that is outside of comments, where there is no next mark. -/
def outside (r : Reader) : List Char := if r.inside then r.seen else r.seen ++ r.ahead

end Reader

/-- The reader at the end of a text. -/
def reading (text : String) : Reader := Reader.run ⟨false, [], text.toList⟩

/-- What is outside of comments before the comment that a text leaves open; `none` if it leaves none
open. -/
def leftOpen? (text : String) : Option String :=
  if (reading text).inside then some (String.ofList (reading text).seen) else none

theorem reading_keeps {P : Reader → Prop} (hstep : ∀ {r s : Reader}, r.step? = some s → P r → P s)
    (h : P ⟨false, [], text.toList⟩) : P (reading text) ∧ (reading text).step? = none :=
  Reader.run_keeps hstep h

theorem leftOpen?_of_inside (h : (reading text).inside = true) :
    leftOpen? text = some (String.ofList (reading text).outside) := by
  rw [leftOpen?, Reader.outside, if_pos h, if_pos h]

theorem leftOpen?_of_outside (h : (reading text).inside = false) : leftOpen? text = none := by
  rw [leftOpen?, h, if_neg Bool.false_ne_true]

/-! ## What taking out leaves -/

theorem erase_anyComment_cut (h : cut? startMark cs = some (before, after)) :
    erase anyComment cs = before ++ erase anyComment (startMark ++ after) := by
  induction cs generalizing before with
  | nil => cases h
  | cons c cs ih =>
    by_cases hstarts : startMark <+: c :: cs
    · obtain ⟨rest, hrest⟩ := hstarts
      rw [← hrest, cut?_hit (by decide)] at h
      cases h
      rw [← hrest, List.nil_append]
    · rw [cut?_miss hstarts] at h
      obtain ⟨⟨before, after⟩, hcut, heq⟩ := Option.map_eq_some_iff.mp h
      cases heq
      have hmiss : anyComment true (c :: cs) = none := by
        rw [anyComment, commentOf, isPrefixOf?_eq_none_iff.mpr hstarts]
      rw [steady_anyComment.erase_miss hmiss, ih hcut, List.cons_append]

theorem erase_anyComment_open (h : cut? endMark after = none) :
    erase anyComment (startMark ++ after) = startMark ++ after := by
  refine erase_anyComment_unended fun rest hrest => ?_
  have hlen := hrest.length_le
  rw [List.length_append, List.length_append] at hlen
  have hbehind : rest <:+ after :=
    List.suffix_of_suffix_length_le ((List.suffix_append startMark rest).trans hrest)
      (List.suffix_append startMark after) (by omega)
  rw [cut?_eq_none_iff (by decide)] at h ⊢
  exact fun hend => h (hend.trans hbehind.isInfix)

namespace Reader

variable {r s : Reader}

/-- What has been seen, with what taking out leaves of the rest. The start of the comment that the
reader is in belongs to the rest. -/
def left (r : Reader) : List Char :=
  r.seen ++ erase anyComment (if r.inside then startMark ++ r.ahead else r.ahead)

theorem left_step (h : r.step? = some s) : s.left = r.left := by
  obtain ⟨seen, ahead, before, after, hcut, rfl, rfl⟩ | ⟨seen, ahead, body, after, hcut, rfl, rfl⟩ :=
    step_cases h
  · simp only [left, Bool.false_eq_true, if_true, if_false]
    rw [erase_anyComment_cut hcut, List.append_assoc]
  · have hgone : erase anyComment (startMark ++ ahead) = erase anyComment after :=
      erase_commentOf_hit hcut (List.all_eq_true.mpr fun _ _ => rfl)
    simp only [left, Bool.false_eq_true, if_true, if_false]
    rw [hgone]

/-- Where there is no next mark, nothing more is taken out. -/
theorem left_of_none (h : r.step? = none) :
    r.left = r.outside ++ if r.inside then startMark ++ r.ahead else [] := by
  obtain ⟨inside, seen, ahead⟩ := r
  cases inside with
  | false =>
    have hnone : cut? startMark ahead = none := Option.map_eq_none_iff.mp h
    simp [left, outside, erase_anyComment_eq_self hnone]
  | true =>
    have hnone : cut? endMark ahead = none := Option.map_eq_none_iff.mp h
    simp [left, outside, erase_anyComment_open hnone]

end Reader

/-- **What is left of a text without its complete comments**: all that is outside of comments, and the
comment left open, if there is one. -/
theorem remove_eq_outside (text : String) : (remove text).toList
    = (reading text).outside
      ++ if (reading text).inside then startMark ++ (reading text).ahead else [] := by
  obtain ⟨hleft, hend⟩ := reading_keeps (P := fun r => r.left = erase anyComment text.toList)
    (fun hstep hsame => (Reader.left_step hstep).trans hsame) rfl
  rw [remove, String.toList_ofList, ← hleft, Reader.left_of_none hend]

/-- The first start of a comment in what is left is one that was put together, or else that of the
comment left open. -/
theorem beforeDangling?_eq (text : String) : beforeDangling? text
    = ((cut? startMark (reading text).outside).map fun (before, _) => String.ofList before).or
        (leftOpen? text) := by
  rw [beforeDangling?, remove_eq_outside]
  cases hin : (reading text).inside with
  | false =>
    rw [leftOpen?_of_outside hin, Option.or_none, if_neg Bool.false_ne_true, List.append_nil]
  | true =>
    have hfirst : (cut? startMark ((reading text).outside ++ (startMark ++ (reading text).ahead))).map
        Prod.fst = some (((cut? startMark (reading text).outside).map Prod.fst).getD
          (reading text).outside) := cut?_append_mark (by decide) _ _
    obtain ⟨⟨before, after⟩, hcut, hbefore⟩ := Option.map_eq_some_iff.mp hfirst
    rw [leftOpen?_of_inside hin, if_pos rfl, hcut, Option.map_some]
    cases hmade : cut? startMark (reading text).outside with
    | none =>
      rw [hmade] at hbefore
      exact congrArg (fun cs => some (String.ofList cs)) hbefore
    | some pair =>
      rw [hmade] at hbefore
      exact congrArg (fun cs => some (String.ofList cs)) hbefore

/-- Where a start was put together, it is not that of the comment left open. -/
theorem beforeDangling?_eq_leftOpen?_iff : beforeDangling? text = leftOpen? text
    ↔ ¬startMark <:+: (reading text).outside := by
  rw [beforeDangling?_eq, ← cut?_eq_none_iff (by decide)]
  constructor
  · intro hsame
    rw [Option.eq_none_iff_forall_ne_some]
    rintro ⟨before, after⟩ hmade
    rw [hmade, Option.map_some, Option.some_or] at hsame
    cases hin : (reading text).inside with
    | false =>
      rw [leftOpen?_of_outside hin] at hsame
      cases hsame
    | true =>
      rw [leftOpen?_of_inside hin, Option.some.injEq, String.ofList_inj] at hsame
      have hlen := congrArg List.length (append_of_cut?_eq_some hmade)
      simp only [← hsame, startMark, List.length_append, List.length_cons] at hlen
      omega
  · intro hnone
    rw [hnone, Option.map_none, Option.none_or]

/-! ## Starts that are put together -/

/-- Directly before a start of a comment stands a part of one: `<`, `<!` or `<!-`. -/
def SplitsStart (text : String) : Prop :=
  ∃ n, 0 < n ∧ n < startMark.length ∧ startMark.take n ++ startMark <:+: text.toList

/-- There is no start of a comment in a text, and no part of one at its end. -/
structure Startless (cs : List Char) : Prop where
  within : ¬startMark <:+: cs
  ending : ∀ part, part <+: startMark → part <:+ cs → part = []

theorem startless_nil : Startless [] := ⟨by decide, fun _ _ hpart => List.suffix_nil.mp hpart⟩

theorem Startless.not_infix_append (h : Startless xs) (hys : ¬startMark <:+: ys) :
    ¬startMark <:+: xs ++ ys := by
  intro hin
  rcases List.infix_append_iff.mp hin with hin | hin | ⟨part, rest, hmark, hpart, hrest⟩
  · exact h.within hin
  · exact hys hin
  · obtain rfl := h.ending part ⟨rest, hmark.symm⟩ hpart
    exact hys (hmark ▸ hrest.isInfix)

theorem Startless.append (h : Startless xs) (hys : Startless ys) : Startless (xs ++ ys) where
  within := h.not_infix_append hys.within
  ending part hpart hsuffix := by
    rcases List.suffix_or_suffix_of_suffix hsuffix (List.suffix_append xs ys) with hin | ⟨front, rfl⟩
    · exact hys.ending part hpart hin
    · have hfront : front <:+ xs := ((List.suffix_append_inj_of_length_eq rfl).mp hsuffix).1
      obtain rfl := h.ending front ((List.prefix_append front ys).trans hpart) hfront
      exact hys.ending ys hpart List.suffix_rfl

/-- What stands before a start of a comment does not end in a part of one. -/
theorem startless_of_cut? (h : ¬SplitsStart text) (hcs : cs <:+ text.toList)
    (hcut : cut? startMark cs = some (before, after)) : Startless before where
  within := not_infix_of_cut?_eq_some (by decide) hcut
  ending part hpart hsuffix := by
    have htake := List.prefix_iff_eq_take.mp hpart
    obtain ⟨front, hfront⟩ := hsuffix
    have hshort : part.length < startMark.length := by
      refine Nat.lt_of_not_le fun hlong => ?_
      rw [List.take_of_length_le hlong] at htake
      have hwithin : startMark <:+: before := ⟨front, [], by rw [← htake, hfront, List.append_nil]⟩
      exact not_infix_of_cut?_eq_some (by decide) hcut hwithin
    have hdirectly : part ++ startMark <:+: cs :=
      ⟨front, after, by simp [append_of_cut?_eq_some hcut, ← hfront]⟩
    by_contra hne
    exact h ⟨part.length, List.length_pos_of_ne_nil hne, hshort,
      htake ▸ hdirectly.trans hcs.isInfix⟩

/-- The reader is in `text`, and has seen no start of a comment nor a part of one last. -/
structure Reader.Clear (text : String) (r : Reader) : Prop where
  ahead : r.ahead <:+ text.toList
  seen : Startless r.seen

theorem Reader.Clear.step {r s : Reader} (h : ¬SplitsStart text) (hstep : r.step? = some s)
    (hr : Clear text r) : Clear text s := by
  obtain ⟨hahead, hseen⟩ := hr
  obtain ⟨seen, ahead, before, after, hcut, rfl, rfl⟩ | ⟨seen, ahead, body, after, hcut, rfl, rfl⟩ :=
    step_cases hstep
  all_goals
    have hafter : after <:+ ahead := by
      rw [append_of_cut?_eq_some hcut, ← List.append_assoc]
      exact List.suffix_append _ _
  · exact ⟨hafter.trans hahead, hseen.append (startless_of_cut? h hahead hcut)⟩
  · exact ⟨hafter.trans hahead, hseen⟩

theorem Reader.Clear.not_infix_outside {r : Reader} (hr : Clear text r) (hend : r.step? = none) :
    ¬startMark <:+: r.outside := by
  obtain ⟨inside, seen, ahead⟩ := r
  cases inside with
  | true => exact hr.seen.within
  | false =>
    have hnone : cut? startMark ahead = none := Option.map_eq_none_iff.mp hend
    exact hr.seen.not_infix_append ((cut?_eq_none_iff (by decide)).mp hnone)

theorem not_infix_outside (h : ¬SplitsStart text) : ¬startMark <:+: (reading text).outside := by
  obtain ⟨hclear, hend⟩ := reading_keeps (fun hstep => Reader.Clear.step h hstep)
    ⟨List.suffix_rfl, startless_nil⟩
  exact hclear.not_infix_outside hend

/-! ## The comment that is found open -/

/-- **Which comment is found open.** Just where closing up puts no start of a comment together, it is the
one that the reader is in at the end of the text, and none if the reader is in none. Else it is the
first start put together; and one is put together only in a text where a start of a comment stands
directly behind a part of one. -/
theorem beforeDangling?_read (text : String) :
    (beforeDangling? text = leftOpen? text ↔ ¬startMark <:+: (reading text).outside)
      ∧ (∀ made rest, cut? startMark (reading text).outside = some (made, rest) →
        beforeDangling? text = some (String.ofList made))
      ∧ (startMark <:+: (reading text).outside → SplitsStart text) := by
  refine ⟨beforeDangling?_eq_leftOpen?_iff, ?_, ?_⟩
  · intro made rest hmade
    rw [beforeDangling?_eq, hmade, Option.map_some, Option.some_or]
  · intro hin
    by_contra hwhole
    exact not_infix_outside hwhole hin

/-- A `>` behind the start of a comment does not end it. -/
example : leftOpen? "a<!-->b" = some "a" ∧ beforeDangling? "a<!-->b" = some "a" := by decide +kernel

/-- A document in whose first paragraph closing up puts a start of a comment together. -/
def startClosedUp : Document where
  source := "a <!<!-- b -->-- c\n\nd\n\ne --> f"
  tree := .root (some ⟨0, 30⟩)
    [.paragraph (some ⟨0, 18⟩) [.text (some ⟨0, 18⟩) "a <!<!-- b -->-- c"],
      .paragraph (some ⟨20, 21⟩) [.text (some ⟨20, 21⟩) "d"],
      .paragraph (some ⟨23, 30⟩) [.text (some ⟨23, 30⟩) "e --> f"]]

/-- In a text that ends outside of comments one is found open, and a document loses the paragraph behind
that text; in a text that ends inside of one, too little stays before it. -/
theorem opens_closedUp :
    (leftOpen? "a <!<!-- b -->-- c" = none ∧ beforeDangling? "a <!<!-- b -->-- c" = some "a ")
      ∧ (leftOpen? "a <!<!-- b -->-- c <!-- d" = some "a <!-- c "
        ∧ beforeDangling? "a <!<!-- b -->-- c <!-- d" = some "a ")
      ∧ let ts := startClosedUp.tokens .lenient false
        ts.map Token.content = ["", "a <!<!-- b -->-- c", "", "", "d", "", "", "e --> f", ""]
          ∧ (Rule.run ⟨false, false⟩ .comments ⟨ts, {}⟩).tokens.map Token.content
            = ["", "a", "", "", "f", ""] := by
  decide +kernel

end MarkdownPreview.Comment
