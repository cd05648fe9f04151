import MarkdownPreview.Proofs.Checked.Edits
import MarkdownPreview.Proofs.Checked.Text
import MarkdownPreview.Proofs.Rules.Run
import MarkdownPreview.Proofs.Variables.Raised

/-!
# Variables, with every place checked

A text is cut up at the places of its variables. A run that superscripts have taken apart is put
together by the places of its five tokens, which start one before the token that is looked at and end
three behind it; two of them are taken out. The place looked at is at least the second and has three
more behind it, so all five are there.
-/

set_option autoImplicit false

namespace MarkdownPreview.Checked

open Text Variable

/-! ## Highlights in a text -/

section

variable (plain name : String → String)

/-- Writes what is left of a text from a place on, given the variables that are to come. -/
def highlightFrom? (text : List Char) : List (Match (List Char)) → (pointer : Nat) → Option String
  | [], pointer => (dropBytes? pointer text).map fun rest => plain (String.ofList rest)
  | hit :: hits, pointer => do
    let before ← slice? pointer hit.start text
    let after ← highlightFrom? text hits hit.stop
    return plain (String.ofList before) ++ (span (name (String.ofList hit.value)) ++ after)

def highlight? (text : String) : Option String :=
  highlightFrom? plain name text.toList (allMatches markedName text.toList) 0

/-- The pieces of a text as HTML. -/
def written (p : Pieces Char (List Char)) : String :=
  plain (String.ofList p.first) ++ String.join (p.rest.map fun (n, after) =>
    span (name (String.ofList n)) ++ plain (String.ofList after))

theorem written_hit (mid value : List Char) (p : Pieces Char (List Char)) :
    written plain name ⟨mid, (value, p.first) :: p.rest⟩
      = plain (String.ofList mid)
        ++ (span (name (String.ofList value)) ++ written plain name p) := by
  simp [written, String.append_assoc]

/-- Of the text, `front` has been written, `mid` is known to hold no variable, and `rest` is still to
be looked at. -/
theorem highlightFrom?_eq (front mid rest : List Char) :
    highlightFrom? plain name (front ++ (mid ++ rest))
        (matchesFrom markedName true 0 (byteSize (front ++ mid)) rest) (byteSize front)
      = some (written plain name
          ⟨mid ++ (pieces markedName rest).first, (pieces markedName rest).rest⟩) := by
  induction hlen : rest.length using Nat.strongRecOn generalizing front mid rest with
  | ind n ih =>
    subst hlen
    cases rest with
    | nil =>
      rw [matchesFrom, highlightFrom?, dropBytes?_byteSize]
      simp [written, pieces, scan, scanFrom, Pieces.ofScan]
    | cons c cs =>
      have hsize (us : List Char) : byteSize (us ++ [c]) = byteSize us + c.utf8Size := by
        simp [byteSize]
      cases hhit : markedName true (c :: cs) with
      | none =>
        have hnext := ih cs.length (Nat.lt_succ_self _) front (mid ++ [c]) cs rfl
        simp only [← List.append_assoc, hsize] at hnext
        rw [matchesFrom, hhit, steady_markedName.pieces_cons hhit]
        simp only [matchesFrom_eq steady_markedName false, List.take_zero, List.drop_zero,
          byteSize_nil, Nat.add_zero]
        simpa using hnext
      | some hit =>
        have hrest : (cs.drop hit.more).length < (c :: cs).length := by
          rw [List.length_drop, List.length_cons]
          omega
        have hnext := ih _ hrest (front ++ (mid ++ (c :: cs).take (hit.more + 1))) []
          (cs.drop hit.more) rfl
        rw [matchesFrom, hhit, steady_markedName.pieces_hit hhit rfl]
        simp only [matchesFrom_eq steady_markedName false, highlightFrom?]
        rw [slice?_byteSize, Option.bind_eq_bind, Option.bind_some, List.append_nil, written_hit]
        simp only [List.take_succ_cons, List.nil_append, List.append_nil, List.append_assoc,
          List.cons_append, List.take_append_drop, byteSize_append, byteSize_cons] at hnext ⊢
        simp only [Nat.add_assoc, hnext]
        rfl

theorem highlight?_eq (text : String) :
    highlight? plain name text = some (highlight plain name text) :=
  highlightFrom?_eq plain name [] [] text.toList

end

/-! ## Variables taken apart -/

/-- The name in the raised run whose opening token is at place `i`, if there is one. -/
def takenApartAt? (ts : List Token) (i : Nat) : Option (Option String) := do
  let before ← ts[← sub? i 1]?
  let up ← ts[i]?
  let raised ← ts[i + 1]?
  let down ← ts[i + 2]?
  let after ← ts[i + 3]?
  return takenApart? before up raised down after

/-- Puts the run together whose opening token is at place `i`. -/
def rejoinAt? (ts : List Token) (i : Nat) (name : String) : Option (List Token) := do
  let place ← sub? i 1
  let before ← ts[place]?
  let ts ← put? ts place { before with content := dropLastBracket before.content }
  let ts ← put? ts (i + 1) (raisedHtml name)
  let after ← ts[i + 3]?
  let ts ← put? ts (i + 3) { after with content := dropFirstBracket after.content }
  let ts ← takeOut? ts (i + 2)
  takeOut? ts i

/-- Goes through the places of a level from `i` on, at most `steps` of them. -/
def rejoinLoop? : (steps i : Nat) → List Token → Option (List Token)
  | 0, _, _ => none
  | steps + 1, i, ts =>
    if i + 3 < ts.length then do
      match ← takenApartAt? ts i with
      | none => rejoinLoop? steps (i + 1) ts
      | some name =>
        let ts ← rejoinAt? ts i name
        rejoinLoop? steps (i + 2) ts
    else some ts

def rejoin? (ts : List Token) : Option (List Token) := rejoinLoop? (ts.length + 1) 1 ts

section

variable (done : List Token) (before up raised down after : Token) (ts : List Token)

theorem takenApartAt?_eq :
    takenApartAt? (done ++ before :: up :: raised :: down :: after :: ts) (done.length + 1)
      = some (takenApart? before up raised down after) := by
  simp [takenApartAt?, sub?, Nat.add_assoc]

theorem rejoinAt?_eq (name : String) :
    rejoinAt? (done ++ before :: up :: raised :: down :: after :: ts) (done.length + 1) name
      = some (done ++ { before with content := dropLastBracket before.content }
          :: raisedHtml name
          :: { after with content := dropFirstBracket after.content } :: ts) := by
  simp [rejoinAt?, sub?, put?, takeOut?, Nat.add_assoc, List.eraseIdx_append_of_length_le]

end

theorem rejoinLoop?_eq {steps : Nat} (done : List Token) (before : Token) {rest : List Token}
    (h : rest.length < steps) :
    rejoinLoop? steps (done.length + 1) (done ++ before :: rest)
      = some (done ++ rejoinFrom before rest) := by
  induction steps generalizing done before rest with
  | zero => exact absurd h (Nat.not_lt_zero _)
  | succ steps ih =>
    rw [rejoinLoop?]
    match rest with
    | up :: raised :: down :: after :: ts =>
      have hplaces : done.length + 1 + 3
          < (done ++ before :: up :: raised :: down :: after :: ts).length := by simp; omega
      rw [if_pos hplaces, takenApartAt?_eq, rejoinFrom]
      simp only [List.length_cons] at h
      cases takenApart? before up raised down after with
      | none =>
        have hshort : (raised :: down :: after :: ts).length < steps := by simp; omega
        have hnext := ih (done ++ [before]) up hshort
        simpa using hnext
      | some name =>
        have hshort : ts.length < steps := by omega
        have hnext := ih
          (done ++ [{ before with content := dropLastBracket before.content }, raisedHtml name])
          { after with content := dropFirstBracket after.content } hshort
        simpa [rejoinAt?_eq] using hnext
    | [] | [_] | [_, _] | [_, _, _] =>
      rw [if_neg, rejoinFrom]
      · simp
      · simp only [List.length_append, List.length_cons, List.length_nil]
        omega

theorem rejoin?_eq (ts : List Token) : rejoin? ts = some (rejoin ts) := by
  cases ts with
  | nil => rfl
  | cons t ts => exact rejoinLoop?_eq [] t (Nat.lt_add_of_pos_right Nat.two_pos)

/-! ## Variables in a document -/

/-- A text token as finished HTML, if it has a variable. -/
def highlightText? (t : Token) : Option Token :=
  if t.kind = .text ∧ occurs t.content = true then
    (highlight? Prose.escape Prose.escape t.content).map Token.html
  else some t

/-- What is done to the tokens of a block's text before they are visited: a text on its own is
highlighted, otherwise variables that have been taken apart are put together. -/
def highlightChildren? : List Token → Option (List Token)
  | [only] => (highlightText? only).map fun t => [t]
  | ts => rejoin? ts

def highlightToken? (t : Token) : Option Token :=
  match t.kind with
  | .inline =>
    match t.children with
    | some ts => (highlightChildren? ts).map fun ts => { t with children := some ts }
    | none => some t
  | .text => highlightText? t
  | .codeInline => (highlight? Html.escape Html.escape t.content).map fun html =>
      Token.html ("<code>" ++ html ++ "</code>")
  | _ => some t

def highlightVisit? : Visit? := fun c =>
  match c.current? with
  | some t => (highlightToken? t).map fun t => (c.replace t).2
  | none => some c

/-- The tokens of a block's text before they are visited. -/
def highlightedChildren : List Token → List Token
  | [only] => if only.kind = .text then [highlightToken only] else [only]
  | ts => rejoin ts

/-- What a visit leaves in the place of a token. -/
def highlighted (t : Token) : Token :=
  if t.kind = .inline then { t with children := t.children.map highlightedChildren }
  else highlightToken t

theorem highlightText?_eq (t : Token) :
    highlightText? t = some (if t.kind = .text then highlightToken t else t) := by
  unfold highlightText? highlightToken
  by_cases hk : t.kind = .text
  · simp only [hk, true_and, highlight?_eq, Option.map_some, if_true]
    split <;> rfl
  · simp only [hk, false_and, if_false]

theorem highlightChildren?_eq (ts : List Token) :
    highlightChildren? ts = some (highlightedChildren ts) := by
  match ts with
  | [only] =>
    rw [highlightChildren?, highlightText?_eq, highlightedChildren]
    split <;> rfl
  | [] | _ :: _ :: _ => exact rejoin?_eq _

theorem highlightToken?_eq (t : Token) : highlightToken? t = some (highlighted t) := by
  unfold highlightToken? highlighted
  split
  · rename_i hk
    rw [if_pos hk]
    obtain ⟨kind, tag, nesting, attrs, content, info, markup, children, block, hidden⟩ := t
    cases children with
    | none => rfl
    | some ts =>
      simp only [highlightChildren?_eq]
      rfl
  · rename_i hk
    rw [highlightText?_eq, if_pos hk, if_neg (by rw [hk]; decide)]
  · rename_i hk
    rw [highlight?_eq, if_neg (by rw [hk]; decide), highlightToken, hk]
    rfl
  · rename_i hinline htext hcode
    rw [if_neg hinline, highlightToken]
    split
    · exact absurd ‹_› htext
    · exact absurd ‹_› hcode
    · rfl

theorem highlightVisit?_eq (before : List Token) (t : Token) (after : List Token) :
    highlightVisit? (Cursor.amid before t after)
      = some (Cursor.amid before (highlighted t) after) := by
  rw [highlightVisit?, Cursor.current?_amid]
  simp only [highlightToken?_eq, Option.map_some, Cursor.replace, Cursor.edit_amid]

/-! ### The levels of a document -/

/-- Putting variables together does not ask for children. -/
theorem rejoinFrom_mapBelow (f : Option Kind → List Token → List Token) (before : Token)
    (ts : List Token) :
    rejoinFrom (before.mapLevels f) (mapBelow f ts) = mapBelow f (rejoinFrom before ts) := by
  have happart (before up raised down after : Token) :
      takenApart? (before.mapLevels f) (up.mapLevels f) (raised.mapLevels f) (down.mapLevels f)
        (after.mapLevels f) = takenApart? before up raised down after := by
    simp only [Token.mapLevels_eq, takenApart?]
  induction before, ts using rejoinFrom.induct with
  | case1 before up raised down after ts name hname ih =>
    have hcut (t : Token) (cut : String → String) :
        { t.mapLevels f with content := cut (t.mapLevels f).content }
          = Token.mapLevels f { t with content := cut t.content } := by
      cases t
      rfl
    simp only [mapBelow, rejoinFrom, happart, hname, hcut, ih]
    rfl
  | case2 before up raised down after ts hname ih =>
    simp only [mapBelow] at ih
    simp only [mapBelow, rejoinFrom, happart, hname, ih]
  | case3 before ts hshort =>
    obtain _ | ⟨up, _ | ⟨raised, _ | ⟨down, _ | ⟨after, ts⟩⟩⟩⟩ := ts
    case cons.cons.cons.cons => exact absurd rfl (hshort up raised down after ts)
    all_goals simp only [mapBelow, rejoinFrom]

theorem rejoin_mapBelow (f : Option Kind → List Token → List Token) (ts : List Token) :
    rejoin (mapBelow f ts) = mapBelow f (rejoin ts) := by
  cases ts with
  | nil => rfl
  | cons t ts => exact rejoinFrom_mapBelow f t ts

theorem highlightToken_under (f : List Token → List Token) (t : Token) :
    highlightToken (t.under f) = (highlightToken t).under f := by
  unfold highlightToken Token.under
  dsimp only
  split
  · split <;> rfl
  · rfl
  · rfl

theorem highlightToken_eq_or (t : Token) :
    highlightToken t = t ∨ ∃ html, highlightToken t = Token.html html := by
  unfold highlightToken
  split
  · split
    · exact .inr ⟨_, rfl⟩
    · exact .inl rfl
  · exact .inr ⟨_, rfl⟩
  · exact .inl rfl

/-- What has been highlighted is not highlighted again. -/
theorem highlightToken_idem (t : Token) : highlightToken (highlightToken t) = highlightToken t := by
  obtain h | ⟨html, h⟩ := highlightToken_eq_or t
  · rw [h, h]
  · rw [h]
    rfl

/-- Only below a block's text is a level more than its tokens. -/
theorem mapLevels_eq_under {t : Token} (h : t.kind ≠ .inline) :
    t.mapLevels highlightLevel = t.under highlightAll := by
  have hlevel (ts : List Token) : highlightLevel (some t.kind) ts = highlightLevel none ts := by
    rw [highlightLevel, highlightLevel, if_neg (by simpa using h), if_neg (by simp)]
  rw [Token.mapLevels_eq, Token.under]
  cases t.children with
  | none => rfl
  | some ts => rw [mapChildren, hlevel]; rfl

theorem highlightAll_cons (t : Token) (ts : List Token) :
    highlightAll (t :: ts) = highlightToken (t.mapLevels highlightLevel) :: highlightAll ts := rfl

theorem highlightAll_highlightedChildren (ts : List Token) :
    highlightAll (highlightedChildren ts) = highlightLevel (some .inline) (mapBelow highlightLevel ts) := by
  have hrejoin (ts : List Token) :
      highlightAll (rejoin ts) = highlightLevel (some .inline) (mapBelow highlightLevel ts) := by
    rw [highlightLevel, if_pos rfl, rejoin_mapBelow]
    rfl
  obtain _ | ⟨only, _ | ⟨u, ts⟩⟩ := ts
  · exact hrejoin []
  · have honly := hrejoin [only]
    rw [rejoin, rejoinFrom] at honly
    · rw [highlightedChildren, ← honly]
      by_cases hk : only.kind = .text
      · have honly : only.kind ≠ .inline := by
          rw [hk]
          decide
        have hleft : (highlightToken only).kind ≠ .inline := by
          obtain h | ⟨html, h⟩ := highlightToken_eq_or only
          · rwa [h]
          · rw [h]
            show Kind.htmlBlock ≠ .inline
            decide
        rw [if_pos hk, highlightAll_cons, highlightAll_cons, mapLevels_eq_under honly,
          mapLevels_eq_under hleft, highlightToken_under, highlightToken_under, highlightToken_idem]
      · rw [if_neg hk]
    · simp
  · exact hrejoin (only :: u :: ts)

theorem highlightToken_mapLevels (t : Token) :
    highlightToken (t.mapLevels highlightLevel) = (highlighted t).under highlightAll := by
  rw [highlighted]
  by_cases hk : t.kind = .inline
  · have hplain : highlightToken (t.mapLevels highlightLevel) = t.mapLevels highlightLevel := by
      rw [Token.mapLevels_eq, highlightToken, hk]
    rw [if_pos hk, hplain, Token.mapLevels_eq, hk, Token.under]
    cases t.children with
    | none => rfl
    | some ts =>
      rw [Option.map_some, Option.map_some, highlightAll_highlightedChildren]
      rfl
  · rw [if_neg hk, mapLevels_eq_under hk, highlightToken_under]

theorem highlightAll_eq (ts : List Token) :
    highlightAll ts = (ts.map highlighted).map (Token.under highlightAll) := by
  induction ts with
  | nil => rfl
  | cons t ts ih => rw [highlightAll_cons, ih, highlightToken_mapLevels]; rfl

theorem depth_le_of_edit {t u : Token} (h : Edit t u) : u.depth ≤ t.depth := by
  have hchildren : u.children = t.children ∨ u.children = none := by
    cases h with
    | html => exact .inr rfl
    | refl | content | anchor | mark => exact .inl rfl
  obtain h | h := hchildren
  · exact (Token.depth_congr h).le
  · rw [Token.depth_of_none h]
    exact Nat.zero_le _

theorem levelDepth_highlightedChildren_le (ts : List Token) :
    levelDepth (highlightedChildren ts) ≤ levelDepth ts := by
  have hrejoin (ts : List Token) : levelDepth (rejoin ts) ≤ levelDepth ts :=
    levelDepth_le (forall_mem_rejoin (fun he ht => (depth_le_of_edit he).trans ht)
      fun _ ht => depth_le_levelDepth ht)
  match ts with
  | [] => exact hrejoin []
  | t :: u :: ts => exact hrejoin (t :: u :: ts)
  | [only] =>
    rw [highlightedChildren]
    split
    · have honly := depth_le_of_edit (Edit.highlightToken only)
      simp only [levelDepth]
      omega
    · exact le_rfl

theorem depth_highlighted_le (t : Token) : (highlighted t).depth ≤ t.depth := by
  unfold highlighted
  split
  · rw [Token.depth_eq, Token.depth_eq]
    dsimp only
    cases t.children with
    | none => exact le_rfl
    | some ts => exact Nat.succ_le_succ (levelDepth_highlightedChildren_le ts)
  · exact depth_le_of_edit (Edit.highlightToken t)

theorem walk?_highlightAll (ts : List Token) :
    ∃ n, ∀ steps, n ≤ steps → walk? highlightVisit? steps ts = some (highlightAll ts) := by
  refine walk?_of_sweeps (fun ts => ⟨ts.map highlighted, ?_, highlightAll_eq ts⟩) ts
  have hsweep := sweep_of_edit highlightAll (fun t _ => highlighted t) highlightVisit?_eq
    (fun t _ => depth_highlighted_le t) [] ts
  rwa [List.nil_append, editEach_eq_map] at hsweep

end MarkdownPreview.Checked
