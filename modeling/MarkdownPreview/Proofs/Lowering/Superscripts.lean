import MarkdownPreview.Proofs.Text.Pieces
import MarkdownPreview.Proofs.Variables.Raised

/-!
# What superscripts leave of a text

Reading superscripts loses nothing: the tokens written back, with a caret for each of the two that
raise a run, are the text that was read (`flatMap_writeBack_raiseAll`). It changes nothing but texts
with a caret, and what it makes of one of these is plain text and raised runs (`IsRaised`).

A second reading changes nothing. The carets left in plain text were turned down, each for what lies
between it and the next caret, and a caret is turned down for that in the piece as well
(`lasts_raised`).
-/

set_option autoImplicit false

namespace MarkdownPreview.Markdown

open Text Variable

variable {cs : List Char} {p : Cut} {t up : Token} {ts us vs : List Token}

/-! ## Runs in a text -/

/-- A raised run as it is written. -/
def run (body : List Char) : List Char := '^' :: (body ++ ['^'])

theorem raised_eq_some_iff {hit : Hit (List Char)} : raised true cs = some hit ↔
    ∃ body rest, IsRaisable body ∧ cs = run body ++ rest ∧ hit = ⟨body, body.length + 1⟩ := by
  constructor
  · intro h
    unfold raised at h
    split at h
    · rename_i cs
      split at h
      · cases h
      · rename_i hclosed
        dsimp only at h
        split at h
        · cases h
        · rename_i hbody
          rw [Bool.or_eq_true, not_or, List.isEmpty_iff, List.any_eq_true] at hbody
          obtain ⟨d, rest, hrest⟩ := List.exists_cons_of_ne_nil hclosed
          have hd : d = '^' := by
            have hstop := List.head_dropWhile_not (· != '^') hclosed
            simpa [hrest] using hstop
          refine ⟨cs.takeWhile (· != '^'), rest, ⟨hbody.1, ?_, ?_⟩, ?_, ?_⟩
          · intro hmem
            have hall := List.all_eq_true.mp List.all_takeWhile _ hmem
            simp at hall
          · intro c hc
            rw [Bool.eq_false_iff]
            exact fun hblank => hbody.2 ⟨c, hc, hblank⟩
          · have hsplit : cs.takeWhile (· != '^') ++ cs.dropWhile (· != '^') = cs :=
              List.takeWhile_append_dropWhile
            rw [hrest, hd] at hsplit
            simp [run, hsplit]
          · exact (Option.some.inj h).symm
    · cases h
  · rintro ⟨body, rest, hbody, rfl, rfl⟩
    rw [run, List.cons_append, List.append_assoc]
    exact raised_hit hbody

theorem lasts_raised : Lasts raised := by
  intro cs hit rest h
  rw [raised_eq_some_iff] at h ⊢
  obtain ⟨body, more, hbody, rfl, rfl⟩ := h
  exact ⟨body, more ++ rest, hbody, List.append_assoc _ _ _, rfl⟩

theorem spells_raised : Spells run raised := by
  intro c cs hit h
  obtain ⟨body, rest, -, hcs, rfl⟩ := raised_eq_some_iff.mp h
  have hlen : (run body).length = body.length + 1 + 1 := by simp [run]
  rw [← List.take_succ_cons, hcs, ← hlen, List.take_left]

theorem isRaisable_of_mem_pieces (cs : List Char) :
    ∀ run ∈ (pieces raised cs).rest, IsRaisable run.1 := by
  have hread ⦃cs : List Char⦄ ⦃hit : Hit (List Char)⦄ (h : raised true cs = some hit) :
      IsRaisable hit.value := by
    obtain ⟨body, -, hbody, -, rfl⟩ := raised_eq_some_iff.mp h
    exact hbody
  exact (steady_raised.cuts cs).forall_mem hread

/-- Where no run is left to be raised, a text stays in one piece. -/
theorem raiseText_of_misses (h : Misses raised cs []) :
    raiseText (String.ofList cs) = plainText cs := by
  have hpieces : ⟨cs, []⟩ = pieces raised cs := steady_raised.cuts_iff.mp (.last h)
  rw [raiseText, String.toList_ofList, ← hpieces]
  simp

/-! ## Writing tokens back -/

/-- The text that a token was read from, if it is a text or raises one. -/
def writeBack (other : Token → List Char) (t : Token) : List Char :=
  if t.kind = .text then t.content.toList
  else if t.kind = .opening .sup ∨ t.kind = .closing .sup then ['^']
  else other t

theorem flatMap_writeBack_plainText (other : Token → List Char) (cs : List Char) :
    (plainText cs).flatMap (writeBack other) = cs := by
  unfold plainText
  split
  · rename_i hnil
    rw [List.isEmpty_iff.mp hnil]
    rfl
  · simp [writeBack, Token.text]

theorem flatMap_writeBack_raiseText (other : Token → List Char) (text : String) :
    (raiseText text).flatMap (writeBack other) = text.toList := by
  have hrun (body : List Char) : (raisedTokens body).flatMap (writeBack other) = run body := by
    simp [raisedTokens, writeBack, Token.text, Token.spanOpening, Token.spanClosing, run]
  have hspelled := (steady_raised.cuts text.toList).spelled spells_raised
  rw [raiseText, List.flatMap_append, flatMap_writeBack_plainText, List.flatMap_assoc]
  simp only [List.flatMap_append, hrun, flatMap_writeBack_plainText]
  exact hspelled

theorem flatMap_writeBack_raiseAll (other : Token → List Char) (ts : List Token) :
    (raiseAll ts).flatMap (writeBack other) = ts.flatMap (writeBack other) := by
  rw [raiseAll, List.flatMap_assoc]
  refine List.flatMap_congr ?_
  intro t _
  split
  · rename_i hcaret
    rw [flatMap_writeBack_raiseText, writeBack, if_pos hcaret.1]
  · simp

/-! ## What becomes of a token -/

/-- Each token that starts a raised run has the text of the run behind it and then the token that
ends it. -/
def Opens (ts : List Token) : Prop :=
  ∀ before up after, ts = before ++ up :: after → up.kind = .opening .sup →
    ∃ body rest, IsRaisable body
      ∧ after = Token.text (String.ofList body) :: Token.spanClosing .sup "sup" "^" :: rest

theorem Opens.of_forall (h : ∀ t ∈ ts, t.kind ≠ .opening .sup) : Opens ts := by
  intro before up after heq hup
  have hmem : up ∈ ts := heq ▸ List.mem_append_right before List.mem_cons_self
  exact absurd hup (h up hmem)

theorem Opens.append (hus : Opens us) (hvs : Opens vs) : Opens (us ++ vs) := by
  intro before up after heq hup
  rcases List.append_eq_append_iff.mp heq with ⟨more, -, hmore⟩ | ⟨rest, hrest, hafter⟩
  · exact hvs more up after hmore hup
  · cases rest with
    | nil => exact hvs [] up after hafter.symm hup
    | cons u rest =>
      rw [List.cons_append, List.cons.injEq] at hafter
      obtain ⟨rfl, rfl⟩ := hafter
      obtain ⟨body, behind, hbody, rfl⟩ := hus before up rest hrest hup
      exact ⟨body, behind ++ vs, hbody, rfl⟩

theorem Opens.tail (h : Opens (t :: ts)) : Opens ts := by
  intro before up after heq hup
  exact h (t :: before) up after (congrArg (t :: ·) heq) hup

theorem opens_plainText (cs : List Char) : Opens (plainText cs) := by
  apply Opens.of_forall
  unfold plainText
  split
  · exact List.forall_mem_nil _
  · exact List.forall_mem_singleton.mpr nofun

theorem opens_raisedTokens {body : List Char} (h : IsRaisable body) : Opens (raisedTokens body) := by
  intro before up after heq hup
  have htail : Opens [Token.text (String.ofList body), Token.spanClosing .sup "sup" "^"] := by
    apply Opens.of_forall
    simp [Token.text, Token.spanClosing]
  cases before with
  | nil =>
    cases heq
    exact ⟨body, [], h, rfl⟩
  | cons t before =>
    rw [List.cons_append, raisedTokens, List.cons.injEq] at heq
    exact htail before up after heq.2 hup

theorem opens_raiseText (text : String) : Opens (raiseText text) := by
  have hbodies := isRaisable_of_mem_pieces text.toList
  rw [raiseText]
  apply (opens_plainText _).append
  generalize (pieces raised text.toList).rest = runs at hbodies
  induction runs with
  | nil => exact .of_forall (List.forall_mem_nil _)
  | cons run runs ih =>
    rw [List.forall_mem_cons] at hbodies
    rw [List.flatMap_cons]
    exact ((opens_raisedTokens hbodies.1).append (opens_plainText _)).append (ih hbodies.2)

/-- What becomes of a token: one that is not a text with a caret stays, and in place of one that is,
each raised run is complete. -/
structure IsRaised (t : Token) (part : List Token) : Prop where
  kept : ¬(t.kind = .text ∧ '^' ∈ t.content.toList) → part = [t]
  opens : t.kind = .text ∧ '^' ∈ t.content.toList → Opens part

theorem exists_parts (ts : List Token) :
    ∃ parts, raiseAll ts = parts.flatten ∧ List.Forall₂ IsRaised ts parts := by
  induction ts with
  | nil => exact ⟨[], rfl, .nil⟩
  | cons t ts ih =>
    obtain ⟨parts, hparts, hraised⟩ := ih
    rw [raiseAll, List.flatMap_cons, ← raiseAll, hparts]
    refine ⟨_ :: parts, rfl, .cons ?_ hraised⟩
    by_cases hcaret : t.kind = .text ∧ '^' ∈ t.content.toList
    · rw [if_pos hcaret]
      exact ⟨fun h => absurd hcaret h, fun _ => opens_raiseText t.content⟩
    · rw [if_neg hcaret]
      exact ⟨fun _ => rfl, fun h => absurd h hcaret⟩

/-! ## A second reading -/

theorem raiseAll_append (ts us : List Token) : raiseAll (ts ++ us) = raiseAll ts ++ raiseAll us :=
  List.flatMap_append

theorem raiseAll_plainText (h : Misses raised cs []) : raiseAll (plainText cs) = plainText cs := by
  have htext := raiseText_of_misses h
  unfold plainText at htext ⊢
  split
  · rfl
  · rename_i hne
    rw [if_neg hne] at htext
    rw [raiseAll, List.flatMap_singleton]
    split
    · exact htext
    · rfl

theorem raiseAll_raisedTokens {body : List Char} (h : IsRaisable body) :
    raiseAll (raisedTokens body) = raisedTokens body := by
  have hcaret : '^' ∉ body := h.2.1
  simp [raiseAll, raisedTokens, Token.text, Token.spanOpening, Token.spanClosing, hcaret]

theorem raiseAll_raiseText (text : String) : raiseAll (raiseText text) = raiseText text := by
  have hbodies := isRaisable_of_mem_pieces text.toList
  obtain ⟨hfirst, hbetween⟩ := (steady_raised.cuts text.toList).misses lasts_raised
  rw [raiseText, raiseAll_append, raiseAll_plainText hfirst]
  congr 1
  generalize (pieces raised text.toList).rest = runs at hbodies hbetween
  induction runs with
  | nil => rfl
  | cons run runs ih =>
    rw [List.forall_mem_cons] at hbodies hbetween
    rw [List.flatMap_cons, raiseAll_append, raiseAll_append, raiseAll_raisedTokens hbodies.1,
      raiseAll_plainText hbetween.1, ih hbodies.2 hbetween.2]

theorem raiseAll_raiseAll (ts : List Token) : raiseAll (raiseAll ts) = raiseAll ts := by
  induction ts with
  | nil => rfl
  | cons t ts ih =>
    have hcons : raiseAll (t :: ts) = raiseAll [t] ++ raiseAll ts := raiseAll_append [t] ts
    have hone : raiseAll (raiseAll [t]) = raiseAll [t] := by
      by_cases hcaret : t.kind = .text ∧ '^' ∈ t.content.toList
      · have ht : raiseAll [t] = raiseText t.content := by simp [raiseAll, hcaret]
        rw [ht, raiseAll_raiseText]
      · have ht : raiseAll [t] = [t] := by
          rw [raiseAll, List.flatMap_singleton, if_neg hcaret]
        rw [ht, ht]
    rw [hcons, raiseAll_append, hone, ih]

/-- **Reading superscripts is lossless, leaves other tokens alone, makes complete runs, and is done
once and for all.** -/
theorem raiseAll_lossless (ts : List Token) :
    (∀ other : Token → List Char,
      (raiseAll ts).flatMap (writeBack other) = ts.flatMap (writeBack other))
    ∧ (∃ parts, raiseAll ts = parts.flatten ∧ List.Forall₂ IsRaised ts parts)
    ∧ raiseAll (raiseAll ts) = raiseAll ts :=
  ⟨fun other => flatMap_writeBack_raiseAll other ts, exists_parts ts, raiseAll_raiseAll ts⟩

end MarkdownPreview.Markdown
