import MarkdownPreview.BlankLines
import MarkdownPreview.Markdown.Nofollow
import MarkdownPreview.Proofs.Checked.Cursor
import MarkdownPreview.Proofs.Checked.Walk
import MarkdownPreview.Proofs.Tree.Levels

/-!
# Links and blank lines, with every visit checked

Most rules leave a token in the place of each token they visit, made of it and of what comes after
it. A walk of such a rule is the same edit on every level (`walk?_of_edit`). The rule for links is
one. The rule for blank lines leaves its tokens as they are, and puts new ones in behind them, which
are visited as well.
-/

set_option autoImplicit false

namespace MarkdownPreview.Checked

/-! ## Editing token by token -/

/-- Edits the tokens of a level, each with a view of those after it. -/
def editEach (edit : Token → List Token → Token) : List Token → List Token
  | [] => []
  | t :: ts => edit t ts :: editEach edit ts

variable {visit? : Visit?}

theorem sweep_of_edit (inner : List Token → List Token) (edit : Token → List Token → Token)
    (hvisit : ∀ before t after, visit? (Cursor.amid before t after)
      = some (Cursor.amid before (edit t after) after))
    (hdepth : ∀ t after, (edit t after).depth ≤ t.depth) (done todo : List Token) :
    Sweep visit? inner done todo (done ++ editEach edit todo) := by
  induction todo generalizing done with
  | nil =>
    rw [editEach, List.append_nil]
    exact .ended done
  | cons t todo ih =>
    have hrest := ih (done ++ [edit t todo])
    rw [List.append_assoc, List.singleton_append] at hrest
    have h := hvisit (done.map (Token.under inner)) t todo
    rw [Cursor.amid, Cursor.amid, List.length_map] at h
    refine .stay h ?_ hrest
    have hle := hdepth t todo
    rw [levelDepth, levelDepth]
    omega

theorem mapBelow_eq_under (f : List Token → List Token) (ts : List Token) :
    mapBelow (fun _ => f) ts = ts.map (Token.under (mapLevels fun _ => f)) := by
  rw [mapBelow_eq_map]
  refine List.map_congr_left fun t _ => ?_
  rw [Token.under]
  cases t.children <;> rfl

variable {edit : Token → List Token → Token}

/-- An edit that does not ask for children can be done before or after the children are changed. -/
theorem editEach_under {f : List Token → List Token}
    (hunder : ∀ t after, edit (t.under f) (after.map (Token.under f)) = (edit t after).under f)
    (ts : List Token) :
    editEach edit (ts.map (Token.under f)) = (editEach edit ts).map (Token.under f) := by
  induction ts with
  | nil => rfl
  | cons t ts ih =>
    rw [List.map_cons, editEach, editEach, List.map_cons, ih, hunder]

/-- **A walk that edits token by token never fails**, and does to every level what it does to one. -/
theorem walk?_of_edit (edit : Token → List Token → Token)
    (hvisit : ∀ before t after, visit? (Cursor.amid before t after)
      = some (Cursor.amid before (edit t after) after))
    (hdepth : ∀ t after, (edit t after).depth ≤ t.depth)
    (hunder : ∀ f t after,
      edit (t.under f) (after.map (Token.under f)) = (edit t after).under f)
    (ts : List Token) :
    ∃ n, ∀ steps, n ≤ steps → walk? visit? steps ts = some (mapLevels (fun _ => editEach edit) ts) := by
  refine walk?_of_sweeps (fun ts => ⟨editEach edit ts, ?_, ?_⟩) ts
  · have h := sweep_of_edit (mapLevels fun _ => editEach edit) edit hvisit hdepth [] ts
    rwa [List.nil_append] at h
  · rw [mapLevels, mapBelow_eq_under, editEach_under (hunder _)]

/-! ## Links -/

def markLink? : Visit? := fun c =>
  match c.current? with
  | some t => some (if t.kind = .opening .link then c.edit (·.setAttr "rel" "nofollow") else c)
  | none => some c

theorem markLink?_eq (before : List Token) (t : Token) (after : List Token) :
    markLink? (Cursor.amid before t after)
      = some (Cursor.amid before (Markdown.markLink t) after) := by
  rw [markLink?, Cursor.current?_amid, Markdown.markLink]
  by_cases h : t.kind = .opening .link
  · simp only [if_pos h, Cursor.edit_amid]
  · simp only [if_neg h]

theorem editEach_eq_map (edit : Token → Token) (ts : List Token) :
    editEach (fun t _ => edit t) ts = ts.map edit := by
  induction ts with
  | nil => rfl
  | cons t ts ih => rw [editEach, List.map_cons, ih]

theorem walk?_markLinks (ts : List Token) :
    ∃ n, ∀ steps, n ≤ steps → walk? markLink? steps ts = some (Markdown.markLinks ts) := by
  have hchildren (t : Token) : (Markdown.markLink t).children = t.children := by
    unfold Markdown.markLink
    split <;> rfl
  have hwalk := walk?_of_edit (fun t _ => Markdown.markLink t) markLink?_eq
    (fun t _ => (Token.depth_congr (hchildren t)).le)
    (fun f t _ => by
      unfold Markdown.markLink Token.under
      split <;> rfl) ts
  have hlevel : (fun _ => editEach fun t _ => Markdown.markLink t)
      = fun (_ : Option Kind) => List.map Markdown.markLink := by
    funext _ level
    exact editEach_eq_map Markdown.markLink level
  rwa [hlevel] at hwalk

/-! ## Blank lines -/

open BlankLines

/-- Puts a line break behind the current token, if one belongs there. -/
def addBlank? : Visit? := fun c =>
  match c.current? with
  | none => some c
  | some t =>
    if !endsPart t.kind then some c
    else if (c.peek 1).any fun next => suppresses next.kind then some c
    else c.insertAfter? Token.newline

theorem peek_amid (before : List Token) (t : Token) (after : List Token) :
    (Cursor.amid before t after).peek 1 = after.head? := by
  have hplace : ¬ ((before.length : Int) + 1 < 0) := by omega
  have hnat : ((before.length : Int) + 1).toNat = before.length + 1 := by omega
  simp [Cursor.peek, Cursor.amid, hplace, hnat, List.head?_eq_getElem?, List.getElem?_append_right]

theorem insertAfter_amid (before : List Token) (t u : Token) (after : List Token) :
    (Cursor.amid before t after).insertAfter u = Cursor.amid before t (u :: after) := by
  have htake : (before ++ t :: after).take (before.length + 1) = before ++ [t] := by
    simp [List.take_append, List.take_of_length_le]
  have hdrop : (before ++ t :: after).drop (before.length + 1) = after := by simp
  have hplace : min (before.length + 1) (before ++ t :: after).length = before.length + 1 := by
    simp
  have hafter : ¬ before.length + 1 ≤ before.length := Nat.not_succ_le_self _
  simp only [Cursor.insertAfter, Cursor.splice, Cursor.amid, hplace, Nat.add_zero, htake, hdrop,
    Nat.sub_self, List.take_zero, hafter, decide_false, Bool.and_false, Bool.false_and, if_false]
  simp

/-- Whether a line break belongs between a token and what comes after it. -/
def needsBreak (t : Token) (after : List Token) : Bool :=
  endsPart t.kind && !(after.head?.any fun next => suppresses next.kind)

theorem addBlank?_eq (before : List Token) (t : Token) (after : List Token) :
    addBlank? (Cursor.amid before t after) = some (Cursor.amid before t
      (if needsBreak t after then Token.newline :: after else after)) := by
  simp only [addBlank?, Cursor.current?_amid, peek_amid, Cursor.insertAfter?_eq, insertAfter_amid,
    needsBreak]
  by_cases hends : endsPart t.kind = true
  · by_cases hskips : (after.head?.any fun next => suppresses next.kind) = true
    · simp [hends, hskips]
    · simp [hends, hskips]
  · simp [hends]

theorem addLevel_cons (t : Token) (ts : List Token) :
    addLevel (t :: ts)
      = if needsBreak t ts then t :: Token.newline :: addLevel ts else t :: addLevel ts := rfl

/-- The level needs a walk that visits what it has put in: the line breaks ask for no others. -/
theorem sweep_addLevel (inner : List Token → List Token) (done todo : List Token) :
    Sweep addBlank? inner done todo (done ++ addLevel todo) := by
  have hvisit (done : List Token) (t : Token) (todo : List Token) :=
    addBlank?_eq (done.map (Token.under inner)) t todo
  simp only [Cursor.amid, List.length_map] at hvisit
  induction todo generalizing done with
  | nil =>
    rw [addLevel, List.append_nil]
    exact .ended done
  | cons t todo ih =>
    rw [addLevel_cons]
    by_cases hbreak : needsBreak t todo = true
    · have hnewline := hvisit (done ++ [t]) Token.newline todo
      have hrest := ih (done ++ [t, Token.newline])
      have h := hvisit done t todo
      have hends : needsBreak Token.newline todo = false := rfl
      rw [if_pos hbreak] at h ⊢
      rw [hends] at hnewline
      refine .stay h ?_ (.stay hnewline le_rfl ?_)
      · have hzero : Token.newline.depth = 0 := rfl
        rw [levelDepth, levelDepth, levelDepth, hzero, Nat.zero_max]
      · simpa using hrest
    · have hrest := ih (done ++ [t])
      have h := hvisit done t todo
      rw [if_neg hbreak] at h ⊢
      exact .stay h le_rfl (by simpa using hrest)

theorem addLevel_under (f : List Token → List Token) (ts : List Token) :
    addLevel (ts.map (Token.under f)) = (addLevel ts).map (Token.under f) := by
  induction ts with
  | nil => rfl
  | cons t ts ih =>
    have hbreak : needsBreak (t.under f) (ts.map (Token.under f)) = needsBreak t ts := by
      cases ts <;> rfl
    rw [List.map_cons, addLevel_cons, addLevel_cons, hbreak, ih]
    split <;> rfl

theorem walk?_addBlanks (ts : List Token) :
    ∃ n, ∀ steps, n ≤ steps → walk? addBlank? steps ts = some (addAll ts) := by
  refine walk?_of_sweeps (fun ts => ⟨addLevel ts, ?_, ?_⟩) ts
  · exact sweep_addLevel _ [] ts
  · rw [addAll, mapLevels, mapBelow_eq_under, addLevel_under]
    rfl

end MarkdownPreview.Checked
