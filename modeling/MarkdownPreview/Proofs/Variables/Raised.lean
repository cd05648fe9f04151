import Mathlib.Data.List.Basic
import MarkdownPreview.Proofs.Lowering.Line
import MarkdownPreview.Proofs.Markup.Seams
import MarkdownPreview.Proofs.Text.Pieces
import MarkdownPreview.Proofs.Tree.Levels

/-!
# Variables and superscripts

Where superscripts are read, the carets of a variable's marks raise its name, and `rejoin` has to
find it again. A text written with variables is taken apart in the same places by both readings
(`pieces_written`, `pieces_raised_written`), a mark losing its brackets to its neighbours in the
second; so putting the runs together gives the pieces that the marks cut out (`rejoin_raiseAll`).

They are not put together to one token, though, but stand side by side as text and finished HTML.
This is not seen in what is written, since neither shows its neighbours or shows in them
(`renderRun_flatMap`).
-/

set_option autoImplicit false

namespace MarkdownPreview

open Text

/-! ## Texts with variables -/

namespace Variable

abbrev Cut : Type := Pieces Char (List Char)

/-- The text whose pieces are given, with a mark on either side of each name. -/
def written (p : Cut) : List Char :=
  p.first ++ p.rest.flatMap fun (name, after) => mark ++ name ++ mark ++ after

/-- Whether a name is one that could be raised. -/
def IsRaisable (name : List Char) : Prop :=
  name ≠ [] ∧ '^' ∉ name ∧ ∀ c ∈ name, isBlank c = false

/-- The only carets of the text are those of its marks, and its names have no blanks. -/
structure IsPlain (p : Cut) : Prop where
  first : '^' ∉ p.first
  names : ∀ run ∈ p.rest, IsRaisable run.1
  between : ∀ run ∈ p.rest, '^' ∉ run.2

instance (name : List Char) : Decidable (IsRaisable name) :=
  decidable_of_iff (name ≠ [] ∧ '^' ∉ name ∧ (name.all fun c => isBlank c == false) = true)
    (by simp [IsRaisable])

instance (p : Cut) : Decidable (IsPlain p) :=
  decidable_of_iff
    ('^' ∉ p.first ∧ (∀ run ∈ p.rest, IsRaisable run.1) ∧ ∀ run ∈ p.rest, '^' ∉ run.2)
    ⟨fun h => ⟨h.1, h.2.1, h.2.2⟩, fun h => ⟨h.first, h.names, h.between⟩⟩

variable {first name after cs : List Char} {rest : List (List Char × List Char)}

theorem IsPlain.tail (h : IsPlain ⟨first, (name, after) :: rest⟩) : IsPlain ⟨after, rest⟩ where
  first := h.between _ List.mem_cons_self
  names := fun run hrun => h.names run (List.mem_cons_of_mem _ hrun)
  between := fun run hrun => h.between run (List.mem_cons_of_mem _ hrun)

theorem IsPlain.head (h : IsPlain ⟨first, (name, after) :: rest⟩) : IsRaisable name :=
  h.names _ List.mem_cons_self

theorem written_nil (first : List Char) : written ⟨first, []⟩ = first := List.append_nil first

theorem written_cons (first name after : List Char) (rest : List (List Char × List Char)) :
    written ⟨first, (name, after) :: rest⟩
      = first ++ '<' :: '^' :: '>' :: (name ++ '<' :: '^' :: '>' :: written ⟨after, rest⟩) := by
  simp [written, mark]

theorem ne_nil_of_caret_mem {p : Cut} (h : IsPlain p) (hc : '^' ∈ written p) : p.rest ≠ [] := by
  intro hrest
  rw [written, hrest] at hc
  exact h.first (by simpa using hc)

theorem steady_markedName : Steady markedName := fun _ _ => rfl

theorem steady_raised : Steady Markdown.raised := by
  intro b cs
  unfold Markdown.raised
  cases cs with
  | nil => rfl
  | cons c cs =>
    by_cases hc : c = '^'
    · subst hc
      rfl
    · simp [hc]

/-! ## Where a mark starts -/

theorem not_caret_second {s : List Char} (hs : s ≠ []) (h : '^' ∉ s) (hcs : cs.head? ≠ some '^') :
    (s ++ cs)[1]? ≠ some '^' := by
  match s, hs with
  | [c], _ => simpa [← List.head?_eq_getElem?] using hcs
  | c :: d :: s, _ =>
    have hd : d ≠ '^' := fun hd => h (by simp [hd])
    simpa using hd

theorem isPrefixOf?_mark_eq_none (h : cs[1]? ≠ some '^') : mark.isPrefixOf? cs = none := by
  match cs with
  | [] => rfl
  | [c] => simp [mark, List.isPrefixOf?]
  | c :: d :: cs =>
    have hd : '^' ≠ d := fun hd => h (by simp [← hd])
    simp [mark, List.isPrefixOf?, hd]

/-- The first mark is found behind what has no carets. -/
theorem cut?_mark (h : '^' ∉ first) :
    cut? mark (first ++ '<' :: '^' :: '>' :: cs) = some (first, cs) := by
  apply cut?_first (by decide)
  intro s hs hne
  rw [← isPrefixOf?_eq_none_iff]
  apply isPrefixOf?_mark_eq_none
  exact not_caret_second hne (fun hc => h (hs.subset hc)) (by simp [mark])

theorem markedName_miss (h : cs[1]? ≠ some '^') : markedName true cs = none := by
  rw [markedName, isPrefixOf?_mark_eq_none h]

theorem markedName_misses (h : '^' ∉ first) (cs : List Char) (hcs : cs.head? ≠ some '^') :
    ∀ s, s <:+ first → s ≠ [] → markedName true (s ++ cs) = none := fun _ hs hne =>
  markedName_miss (not_caret_second hne (fun hc => h (hs.subset hc)) hcs)

theorem markedName_hit (h : IsRaisable name) :
    markedName true ('<' :: '^' :: '>' :: (name ++ '<' :: '^' :: '>' :: cs))
      = some ⟨name, name.length + 5⟩ := by
  obtain ⟨hne, hcaret, hblank⟩ := h
  cases name with
  | nil => exact absurd rfl hne
  | cons c more =>
    have hcut : cut? mark (more ++ '<' :: '^' :: '>' :: cs) = some (more, cs) :=
      cut?_mark fun hc => hcaret (List.mem_cons_of_mem c hc)
    have hline : '\n' ∉ c :: more := fun hn => absurd (hblank _ hn) (by decide)
    have hmark : mark.isPrefixOf? ('<' :: '^' :: '>' :: (c :: more ++ '<' :: '^' :: '>' :: cs))
        = some (c :: (more ++ '<' :: '^' :: '>' :: cs)) := rfl
    simp only [markedName, hmark, hcut]
    simpa using hline

theorem raised_miss {c : Char} (h : c ≠ '^') : Markdown.raised true (c :: cs) = none := by
  unfold Markdown.raised
  simp [h]

theorem raised_misses (h : '^' ∉ first) (cs : List Char) : Misses Markdown.raised first cs :=
  .of_not_mem (fun _ _ hc => raised_miss hc) h cs

theorem raised_hit {body : List Char} (h : IsRaisable body) :
    Markdown.raised true ('^' :: (body ++ '^' :: cs)) = some ⟨body, body.length + 1⟩ := by
  obtain ⟨hne, hcaret, hblank⟩ := h
  have hbody : ∀ c ∈ body, (c != '^') = true := by
    intro c hc
    rw [bne_iff_ne]
    rintro rfl
    exact hcaret hc
  have htake : (body ++ '^' :: cs).takeWhile (· != '^') = body := by
    rw [List.takeWhile_append_of_pos hbody]
    simp
  have hdrop : (body ++ '^' :: cs).dropWhile (· != '^') = '^' :: cs := by
    rw [List.dropWhile_append_of_pos hbody]
    simp
  have hblank : body.any isBlank = false := by
    rw [List.any_eq_false]
    intro c hc
    simp [hblank c hc]
  unfold Markdown.raised
  simp [htake, hdrop, hblank, hne]

/-! ## The two readings of a text with variables -/

/-- **The marks cut a text where it was put together.** -/
theorem pieces_written : ∀ {rest : List (List Char × List Char)} {first : List Char},
    IsPlain ⟨first, rest⟩ → pieces markedName (written ⟨first, rest⟩) = ⟨first, rest⟩
  | [], first, h => by
    have hpieces := steady_markedName.pieces_miss (markedName_misses h.first [] (by simp))
    rw [written_nil]
    simpa [pieces, scan, scanFrom, Pieces.ofScan] using hpieces
  | (name, after) :: rest, first, h => by
    have hhit : pieces markedName
        ('<' :: '^' :: '>' :: (name ++ '<' :: '^' :: '>' :: written ⟨after, rest⟩))
        = ⟨[], (name, after) :: rest⟩ := by
      have hdrop : ('^' :: '>' :: (name ++ '<' :: '^' :: '>' :: written ⟨after, rest⟩)).drop
          (name.length + 5) = written ⟨after, rest⟩ := by simp
      rw [steady_markedName.pieces_hit (markedName_hit h.head) hdrop, pieces_written h.tail]
    rw [written_cons, steady_markedName.pieces_miss (markedName_misses h.first _ (by simp)), hhit,
      List.append_nil]

/-- What is left of a stretch before a name when the caret of the mark between is taken away. -/
def stump (first : List Char) (rest : List (List Char × List Char)) : List Char :=
  if rest.isEmpty then first else first ++ ['<']

/-- The runs that are raised instead of the names, and what stands after each. -/
def raisedRuns : List (List Char × List Char) → List (List Char × List Char)
  | [] => []
  | (name, after) :: rest => ('>' :: name ++ ['<'], '>' :: stump after rest) :: raisedRuns rest

theorem IsRaisable.bracketed (h : IsRaisable name) : IsRaisable ('>' :: name ++ ['<']) := by
  refine ⟨List.cons_ne_nil _ _, ?_, ?_⟩
  · simpa using h.2.1
  · intro c hc
    simp only [List.cons_append, List.mem_cons, List.mem_append, List.not_mem_nil, or_false] at hc
    rcases hc with rfl | hc | rfl
    · decide
    · exact h.2.2 c hc
    · decide

/-- **The carets cut it beside the brackets of its marks.** -/
theorem pieces_raised_written : ∀ {rest : List (List Char × List Char)} {lead first : List Char},
    '^' ∉ lead → IsPlain ⟨first, rest⟩ →
    pieces Markdown.raised (lead ++ written ⟨first, rest⟩)
      = ⟨lead ++ stump first rest, raisedRuns rest⟩
  | [], lead, first, hlead, h => by
    have hcaret : '^' ∉ lead ++ first := by simpa using ⟨hlead, h.first⟩
    have hpieces := steady_raised.pieces_miss (raised_misses hcaret [])
    rw [written_nil]
    simpa [pieces, scan, scanFrom, Pieces.ofScan, stump, raisedRuns] using hpieces
  | (name, after) :: rest, lead, first, hlead, h => by
    have hhit : pieces Markdown.raised
        ('^' :: ('>' :: name ++ ['<'] ++ '^' :: '>' :: written ⟨after, rest⟩))
        = ⟨[], raisedRuns ((name, after) :: rest)⟩ := by
      have hdrop : ('>' :: name ++ ['<'] ++ '^' :: '>' :: written ⟨after, rest⟩).drop
          (('>' :: name ++ ['<']).length + 1) = ['>'] ++ written ⟨after, rest⟩ := by simp
      rw [steady_raised.pieces_hit (raised_hit h.head.bracketed) hdrop,
        pieces_raised_written (by simp) h.tail]
      rfl
    have hcut : lead ++ written ⟨first, (name, after) :: rest⟩ = (lead ++ (first ++ ['<']))
        ++ '^' :: ('>' :: name ++ ['<'] ++ '^' :: '>' :: written ⟨after, rest⟩) := by
      simp [written_cons]
    rw [hcut, steady_raised.pieces_miss (raised_misses ?_ _), hhit, List.append_nil]
    · rfl
    · simpa using ⟨hlead, h.first⟩

/-! ## Putting the runs together -/

/-- Whether no run is raised at the start of a level. -/
def StartsPlain (ts : List Token) : Prop := ∀ t ∈ ts.head?, t.kind ≠ .opening .sup

theorem rejoinFrom_plain {ts : List Token} (before : Token) (h : StartsPlain ts) :
    rejoinFrom before ts = before :: rejoin ts := by
  match ts with
  | [] | [_] | [_, _] | [_, _, _] => simp [rejoin, rejoinFrom]
  | up :: raised :: down :: after :: ts =>
    have hup : up.kind ≠ .opening .sup := h up rfl
    have hnone : takenApart? before up raised down after = none := by
      rw [takenApart?, if_neg fun hk => hup hk.2.1]
    rw [rejoinFrom, hnone]
    rfl

theorem raisedName?_bracketed (h : IsRaisable name) :
    raisedName? (String.ofList ('>' :: name ++ ['<'])) = some (String.ofList name) := by
  have hline : '\n' ∉ name := fun hn => absurd (h.2.2 _ hn) (by decide)
  simp [raisedName?, hline]

theorem dropLastBracket_ofList (first : List Char) :
    dropLastBracket (String.ofList (first ++ ['<'])) = String.ofList first := by
  simp [dropLastBracket]

theorem dropFirstBracket_ofList (after : List Char) :
    dropFirstBracket (String.ofList ('>' :: after)) = String.ofList after := by
  simp [dropFirstBracket]

/-- The tokens of the names that have been put together, and of what stands after each. -/
def rejoinedRuns (rest : List (List Char × List Char)) : List Token :=
  rest.flatMap fun (name, after) =>
    [raisedHtml (String.ofList name), Token.text (String.ofList after)]

/-- The tokens of raised runs, and of what stands after each. -/
def raisedLevel (runs : List (List Char × List Char)) : List Token :=
  runs.flatMap fun (body, after) => Markdown.raisedTokens body ++ Markdown.plainText after

/-- One raised run is put together with the texts around it, the second of which has yet to be
looked at with what follows. -/
theorem rejoinFrom_raised {ts : List Token} (h : IsRaisable name) :
    rejoinFrom (Token.text (String.ofList (first ++ ['<'])))
        (Markdown.raisedTokens ('>' :: name ++ ['<'])
          ++ Token.text (String.ofList ('>' :: after)) :: ts)
      = Token.text (String.ofList first) :: raisedHtml (String.ofList name)
        :: rejoinFrom (Token.text (String.ofList after)) ts := by
  have hapart : takenApart? (Token.text (String.ofList (first ++ ['<'])))
      (Token.spanOpening .sup "sup" "^") (Token.text (String.ofList ('>' :: name ++ ['<'])))
      (Token.spanClosing .sup "sup" "^") (Token.text (String.ofList ('>' :: after)))
      = some (String.ofList name) := by
    rw [takenApart?, if_pos ⟨rfl, rfl, rfl, rfl, rfl⟩]
    exact raisedName?_bracketed h
  show rejoinFrom _ (Token.spanOpening .sup "sup" "^"
    :: Token.text (String.ofList ('>' :: name ++ ['<'])) :: Token.spanClosing .sup "sup" "^"
    :: Token.text (String.ofList ('>' :: after)) :: ts) = _
  rw [rejoinFrom, hapart]
  simp only [Token.text, dropLastBracket_ofList, dropFirstBracket_ofList]

/-- **The runs of a text are put together one after the other.** -/
theorem rejoinFrom_raisedLevel {ts : List Token} (hts : StartsPlain ts) :
    ∀ {rest : List (List Char × List Char)} {first : List Char}, IsPlain ⟨first, rest⟩ →
    rejoinFrom (Token.text (String.ofList (stump first rest)))
        (raisedLevel (raisedRuns rest) ++ ts)
      = Token.text (String.ofList first) :: (rejoinedRuns rest ++ rejoin ts)
  | [], first, _ => rejoinFrom_plain _ hts
  | (name, after) :: rest, first, h => by
    have hlevel : raisedLevel (raisedRuns ((name, after) :: rest)) ++ ts
        = Markdown.raisedTokens ('>' :: name ++ ['<'])
          ++ Token.text (String.ofList ('>' :: stump after rest))
            :: (raisedLevel (raisedRuns rest) ++ ts) := by
      simp [raisedLevel, raisedRuns, Markdown.plainText]
    rw [hlevel]
    show rejoinFrom (Token.text (String.ofList (first ++ ['<']))) _ = _
    rw [rejoinFrom_raised h.head, rejoinFrom_raisedLevel hts h.tail]
    simp [rejoinedRuns]

/-- Whether the text of a token, if it is one, can be read with and without superscripts. -/
def HasPlainText (t : Token) : Prop :=
  t.kind = .text → ∃ p, IsPlain p ∧ t.content.toList = written p

/-- It is enough to look at the pieces that the marks cut out. -/
theorem hasPlainText_iff {t : Token} : HasPlainText t ↔ (t.kind = .text →
    IsPlain (pieces markedName t.content.toList)
      ∧ written (pieces markedName t.content.toList) = t.content.toList) := by
  refine ⟨fun h hk => ?_, fun h hk => ⟨_, (h hk).1, (h hk).2.symm⟩⟩
  obtain ⟨p, hp, ht⟩ := h hk
  rw [ht, pieces_written hp]
  exact ⟨hp, rfl⟩

instance (t : Token) : Decidable (HasPlainText t) := decidable_of_iff' _ hasPlainText_iff

/-- The pieces of a text with a caret, as tokens. -/
def rejoined (t : Token) : List Token :=
  if t.kind = .text ∧ '^' ∈ t.content.toList then
    let p := pieces markedName t.content.toList
    Token.text (String.ofList p.first) :: rejoinedRuns p.rest
  else [t]

theorem raiseText_written {p : Cut} {text : String} (h : IsPlain p) (hc : '^' ∈ written p)
    (ht : text.toList = written p) :
    Markdown.raiseText text = Token.text (String.ofList (stump p.first p.rest))
      :: raisedLevel (raisedRuns p.rest) := by
  obtain ⟨first, rest⟩ := p
  have hrest : rest ≠ [] := ne_nil_of_caret_mem h hc
  have hpieces := pieces_raised_written (List.not_mem_nil (a := '^')) h
  rw [List.nil_append, List.nil_append] at hpieces
  have hstump : stump first rest ≠ [] := by simp [stump, hrest]
  rw [Markdown.raiseText, ht, hpieces]
  simp [Markdown.plainText, hstump, raisedLevel]

theorem startsPlain_raiseAll {ts : List Token} (hsup : ∀ t ∈ ts, t.kind ≠ .opening .sup)
    (hplain : ∀ t ∈ ts, HasPlainText t) : StartsPlain (Markdown.raiseAll ts) := by
  cases ts with
  | nil => exact nofun
  | cons t ts =>
    rw [Markdown.raiseAll, List.flatMap_cons]
    split
    · rename_i hraise
      obtain ⟨p, hp, ht⟩ := hplain t List.mem_cons_self hraise.1
      rw [raiseText_written hp (ht ▸ hraise.2) ht]
      rintro u hu
      cases hu
      exact nofun
    · rintro u hu
      cases hu
      exact hsup t List.mem_cons_self

/-- **Superscripts and variables agree.** Texts that have been raised are put together to the pieces
that their marks cut out. -/
theorem rejoin_raiseAll {ts : List Token} (hsup : ∀ t ∈ ts, t.kind ≠ .opening .sup)
    (hplain : ∀ t ∈ ts, HasPlainText t) :
    rejoin (Markdown.raiseAll ts) = ts.flatMap rejoined := by
  induction ts with
  | nil => rfl
  | cons t ts ih =>
    rw [List.forall_mem_cons] at hsup hplain
    have hts := startsPlain_raiseAll hsup.2 hplain.2
    have ih := ih hsup.2 hplain.2
    rw [Markdown.raiseAll, List.flatMap_cons, ← Markdown.raiseAll, List.flatMap_cons, ← ih]
    by_cases hraise : t.kind = .text ∧ '^' ∈ t.content.toList
    · obtain ⟨p, hp, ht⟩ := hplain.1 hraise.1
      rw [if_pos hraise, rejoined, if_pos hraise, raiseText_written hp (ht ▸ hraise.2) ht, ht,
        pieces_written hp]
      exact rejoinFrom_raisedLevel hts hp
    · rw [if_neg hraise, rejoined, if_neg hraise]
      exact rejoinFrom_plain t hts

/-! ## What is written -/

theorem rejoin_eq_self {ts : List Token} (h : ∀ t ∈ ts, t.kind ≠ .opening .sup) :
    rejoin ts = ts := by
  induction ts with
  | nil => rfl
  | cons t ts ih =>
    rw [List.forall_mem_cons] at h
    have hts : StartsPlain ts := fun u hu => h.2 u (List.mem_of_mem_head? hu)
    calc rejoin (t :: ts)
        = t :: rejoin ts := rejoinFrom_plain t hts
      _ = t :: ts := by rw [ih h.2]

theorem isPlain_of_not_mem (h : '^' ∉ cs) : IsPlain ⟨cs, []⟩ := ⟨h, nofun, nofun⟩

theorem occurs_written {p : Cut} {text : String} (h : IsPlain p) (ht : text.toList = written p) :
    occurs text = !p.rest.isEmpty := by
  rw [occurs, occurs_eq, ht, pieces_written h]

theorem highlightToken_text (h : '^' ∉ cs) :
    highlightToken (Token.text (String.ofList cs)) = Token.text (String.ofList cs) := by
  have hocc : occurs (String.ofList cs) = false :=
    occurs_written (isPlain_of_not_mem h) (by simp [written])
  show (if occurs (String.ofList cs) = true then _ else _) = _
  rw [hocc]
  rfl

theorem map_highlightToken_rejoinedRuns (h : IsPlain ⟨first, rest⟩) :
    (rejoinedRuns rest).map highlightToken = rejoinedRuns rest := by
  rw [rejoinedRuns, List.map_flatMap]
  refine List.flatMap_congr ?_
  intro run hrun
  rw [List.map_cons, List.map_singleton, highlightToken_text (h.between run hrun)]
  rfl

/-- The pieces of a text, side by side or put together to one token. -/
theorem interchangeable_rejoined (p : Preview) {t : Token} (h : HasPlainText t)
    (hraise : t.kind = .text ∧ '^' ∈ t.content.toList) :
    p.Interchangeable ((rejoined t).map highlightToken) [highlightToken t] := by
  obtain ⟨hk, hc⟩ := hraise
  obtain ⟨⟨first, rest⟩, hp, ht⟩ := h hk
  have hocc : occurs t.content = true := by
    rw [occurs_written hp ht]
    simpa using ne_nil_of_caret_mem hp (ht ▸ hc)
  have hpieces : pieces markedName t.content.toList = ⟨first, rest⟩ := by
    rw [ht, pieces_written hp]
  have htokens : (rejoined t).map highlightToken
      = Token.text (String.ofList first) :: rejoinedRuns rest := by
    rw [rejoined, if_pos ⟨hk, hc⟩, hpieces, List.map_cons, highlightToken_text hp.first,
      map_highlightToken_rejoinedRuns hp]
  have htoken : highlightToken t
      = Token.html (highlight Prose.escape Prose.escape t.content) := by
    simp only [highlightToken, hk]
    rw [if_pos hocc]
  rw [htokens, htoken]
  refine ⟨List.cons_ne_nil _ _, List.cons_ne_nil _ _, ?_, ?_, ?_⟩
  · rw [List.forall_mem_cons]
    refine ⟨Token.isSeamless_text _, ?_⟩
    intro u hu
    obtain ⟨run, -, hu⟩ := List.mem_flatMap.mp hu
    simp only [List.mem_cons, List.not_mem_nil, or_false] at hu
    rcases hu with rfl | rfl
    · exact Token.isSeamless_html _
    · exact Token.isSeamless_text _
  · rw [List.forall_mem_singleton]
    exact Token.isSeamless_html _
  · have hruns : String.join ((rejoinedRuns rest).map p.renderAlone)
        = String.join (rest.map fun (n, after) => span (Prose.escape (String.ofList n))
          ++ Prose.escape (String.ofList after)) := by
      clear hp ht hpieces htokens htoken
      induction rest with
      | nil => rfl
      | cons run rest ih =>
        rw [List.map_cons, String.join_cons, ← ih, rejoinedRuns, List.flatMap_cons, List.map_append,
          String.join_append]
        simp [Preview.renderAlone_text, Preview.renderAlone_html, raisedHtml, rejoinedRuns]
    rw [List.map_cons, String.join_cons, hruns, List.map_singleton, Preview.renderAlone_text,
      Preview.renderAlone_html, highlight, hpieces]
    simp

/-- Raising concerns one level alone. -/
theorem mapBelow_raiseAll (f : Option Kind → List Token → List Token) (ts : List Token) :
    mapBelow f (Markdown.raiseAll ts) = Markdown.raiseAll (mapBelow f ts) := by
  rw [mapBelow_eq_map, mapBelow_eq_map, Markdown.raiseAll, Markdown.raiseAll, List.map_flatMap,
    List.flatMap_map]
  refine List.flatMap_congr ?_
  intro t _
  dsimp only
  split
  · -- What raising makes has no levels below it.
    refine (List.map_congr_left ?_).trans (List.map_id _)
    intro u hu
    have hnone : u.children = none := Markdown.forall_mem_raiseText
      (P := fun t => t.children = none) (fun _ => rfl) rfl rfl _ u hu
    cases u
    subst hnone
    rfl
  · rfl

/-- **Raising names does not change how they are highlighted.** If the carets of a line's texts are
those of variables with names that have no blanks, then the line is written as it is without
superscripts. -/
theorem render_raiseAll (p : Preview) (content : String) {ts : List Token}
    (hsup : ∀ t ∈ ts, t.kind ≠ .opening .sup) (hplain : ∀ t ∈ ts, HasPlainText t) :
    p.renderer.render (highlightAll [Token.inline content (Markdown.raiseAll ts)])
      = p.renderer.render (highlightAll [Token.inline content ts]) := by
  have hrender (us : List Token) : p.renderer.render (highlightAll [Token.inline content us])
      = p.renderAfter none ((rejoin (mapBelow highlightLevel us)).map highlightToken) := by
    show String.join
      [p.renderAfter none ((rejoin (mapBelow highlightLevel us)).map highlightToken)] = _
    simp
  have hbelow : ∀ t ∈ mapBelow highlightLevel ts, t.kind ≠ .opening .sup ∧ HasPlainText t := by
    rw [mapBelow_eq_map]
    intro u hu
    obtain ⟨t, ht, rfl⟩ := List.mem_map.mp hu
    exact ⟨hsup t ht, hplain t ht⟩
  rw [hrender, hrender, mapBelow_raiseAll]
  generalize mapBelow highlightLevel ts = us at hbelow
  have hsup : ∀ t ∈ us, t.kind ≠ .opening .sup := fun t ht => (hbelow t ht).1
  have hplain : ∀ t ∈ us, HasPlainText t := fun t ht => (hbelow t ht).2
  rw [rejoin_raiseAll hsup hplain, rejoin_eq_self hsup, List.map_flatMap,
    List.map_eq_flatMap (f := highlightToken)]
  apply p.renderAfter_flatMap
  intro t ht
  by_cases hraise : t.kind = .text ∧ '^' ∈ t.content.toList
  · exact .inr (interchangeable_rejoined p (hplain t ht) hraise)
  · refine .inl ⟨highlightToken t, ?_, rfl⟩
    rw [rejoined, if_neg hraise]
    rfl

/-- Names next to each other and at either end, with brackets around them. -/
def crowded : List Token :=
  [Token.text "<^>a<^><^>b<^>", Token.spanOpening .em "em" "*", Token.text "<<^>c<^>>",
    Token.spanClosing .em "em" "*"]

theorem render_crowded :
    (∀ t ∈ crowded, t.kind ≠ .opening .sup) ∧ (∀ t ∈ crowded, HasPlainText t) ∧
      ∀ p : Preview, p.renderer.render (highlightAll [Token.inline "" (Markdown.raiseAll crowded)])
        = p.renderer.render (highlightAll [Token.inline "" crowded]) := by
  have hsup : ∀ t ∈ crowded, t.kind ≠ .opening .sup := by decide
  have hplain : ∀ t ∈ crowded, HasPlainText t := by decide
  exact ⟨hsup, hplain, fun p => render_raiseAll p "" hsup hplain⟩

end Variable

end MarkdownPreview
