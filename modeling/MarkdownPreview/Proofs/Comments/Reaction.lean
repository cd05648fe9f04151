import MarkdownPreview.Preview.Basic
import MarkdownPreview.Proofs.Checked.Visit
import MarkdownPreview.Proofs.Lowering.Inventory
import MarkdownPreview.Proofs.Text.Pieces
import MarkdownPreview.Proofs.Veil.Comments

/-!
# When taking out comments changes a document

The comment rule looks at the content of a block's text, which is its source: marks of comments count
in it wherever they stand, in running text, in code, in the alternative text of a picture or in the
destination of a link (`reacts_in_code`). Where no text token starts a comment, nothing is closed up
within a block, and it can be said from the contents alone whether a document is left as it is
(`comments_leave_iff`): it is unless a block has nothing but comments in it, or leaves one open that a
later block ends (`Reacts`).

That a document with a reaction does change is shown by counting its characters and tokens (`size`). A
reaction makes them fewer, and what comes after it never makes them more again.
-/

set_option autoImplicit false

namespace MarkdownPreview.Comment

open Text Checked

variable {ts us : List Token} {t u : Token} {i j : Nat} {x : String}

/-- No text token within a block starts a comment. -/
def TextsClear (ts : List Token) : Prop :=
  ∀ t ∈ ts, t.kind = .inline → ∀ u ∈ t.inner, u.kind = .text → hasStart (readable u) = false

instance (ts : List Token) : Decidable (TextsClear ts) :=
  inferInstanceAs (Decidable (∀ t ∈ ts, t.kind = .inline → ∀ u ∈ t.inner, u.kind = .text → _ = false))

/-- The text at `i` is all there is on a level, with its paragraph if it has one around it. -/
def IsAll (ts : List Token) (i : Nat) : Prop :=
  ts.length ≤ if isBefore ts i (.opening .paragraph) && isAt ts (i + 1) (.closing .paragraph) then 3
    else 1

/-- The text `t` at `i` is taken for a comment, or for the start of one. -/
inductive Reacts (ts : List Token) (i : Nat) (t : Token) : Prop
  /-- There is nothing but comments in it, and something else on the level. -/
  | blank (starts : hasStart (readable t) = true) (rest : trimmedEnd (remove (readable t)) = "")
    (more : ¬ IsAll ts i)
  /-- It leaves a comment open that a later text ends. -/
  | unclosed (opens : isDangling (readable t) = true) {j : Nat} {u : Token} (behind : i < j)
    (here : ts[j]? = some u) (ends : endsAcross u = true)

/-! ## Texts -/

theorem steady_anyComment : Steady anyComment := steady_commentOf _

/-- Where no start is ended, there is no comment to take out. -/
theorem erase_anyComment_unended {cs : List Char}
    (h : ∀ rest, startMark ++ rest <:+ cs → cut? endMark rest = none) : erase anyComment cs = cs := by
  induction cs with
  | nil => rfl
  | cons c cs ih =>
    have hmiss : anyComment true (c :: cs) = none := by
      rw [anyComment, commentOf]
      split
      · rfl
      · rename_i rest hrest
        have hstart : startMark ++ rest = c :: cs := List.isPrefixOf?_eq_some_iff_append_eq.mp hrest
        rw [h rest ⟨[], hstart⟩]
    rw [steady_anyComment.erase_miss hmiss, ih fun rest hrest => h rest (hrest.trans (List.suffix_cons c cs))]

theorem erase_anyComment_eq_self {cs : List Char} (h : cut? startMark cs = none) :
    erase anyComment cs = cs := by
  refine erase_anyComment_unended fun rest hrest => ?_
  have hin : startMark <:+: cs := (List.prefix_append startMark rest).isInfix.trans hrest.isInfix
  exact absurd hin ((cut?_eq_none_iff (by decide)).mp h)

theorem remove_eq_self (h : hasStart x = false) : remove x = x := by
  have hcut : cut? startMark x.toList = none := by simpa [hasStart] using h
  rw [remove, erase_anyComment_eq_self hcut, String.ofList_toList]

theorem isDangling_eq_false (h : hasStart x = false) : isDangling x = false := by
  have hcut : cut? startMark x.toList = none := by simpa [hasStart] using h
  rw [isDangling, beforeDangling?, remove_eq_self h, hcut]
  rfl

/-- A text that leaves a comment open has the mark of it, so it is not blank. -/
theorem trimmedEnd_remove_ne (h : isDangling x = true) : trimmedEnd (remove x) ≠ "" := by
  obtain ⟨head, hhead⟩ := Option.isSome_iff_exists.mp h
  obtain ⟨⟨before, after⟩, hcut, -⟩ := Option.map_eq_some_iff.mp hhead
  have hmark : isBlank '<' = false := by decide
  intro hempty
  have hchars := congrArg String.toList hempty
  rw [trimmedEnd, String.toList_ofList, append_of_cut?_eq_some hcut, startMark, List.cons_append,
    trimEnd, dropEndWhile_append_of_neg hmark] at hchars
  simp at hchars

/-! ## Where nothing happens -/

theorem closeUpToken_eq_self (h : ∀ u ∈ t.inner, u.kind = .text → hasStart (readable u) = false) :
    closeUpToken t = t := by
  unfold closeUpToken
  split
  · rfl
  · rename_i ts hts
    have hnone : placeFrom? opensComment 0 ts = none := by
      rw [placeFrom?_eq_none_iff]
      intro i u _ hu
      have hmem : u ∈ t.inner := by simpa [Token.inner, hts] using List.mem_of_getElem? hu
      by_cases hk : u.kind = .text
      · simp [opensComment, isDangling_eq_false (h u hmem hk)]
      · simp [opensComment, hk]
    have honce : closeUpOnce? ts = none := by simp [closeUpOnce?, hnone]
    simp [honce]

/-- A visit to a block whose texts do not start a comment. -/
theorem visit_clear (ht : ts[i]? = some t) (hk : t.kind = .inline)
    (hclear : ∀ u ∈ t.inner, u.kind = .text → hasStart (readable u) = false) :
    visit ts i = if hasStart (readable t) = true then
        if trimmedEnd (remove (readable t)) = "" then takeOutBlock ts i
        else if isDangling (readable t) = true then takeOutAcross ts i (readable t)
        else (ts, i + 1)
      else (ts, i + 1) := by
  have hset : ts.set i t = ts := by
    obtain ⟨hlt, rfl⟩ := List.getElem?_eq_some_iff.mp ht
    exact List.set_getElem_self hlt
  unfold visit
  rw [ht]
  simp only [hk, true_and, closeUpToken_eq_self hclear, hset, String.isEmpty_iff]

theorem visit_of_kind_ne (h : ∀ t, ts[i]? = some t → t.kind ≠ .inline) : visit ts i = (ts, i + 1) := by
  unfold visit
  split
  · rfl
  · rename_i t ht
    rw [if_neg fun hcond => h t ht hcond.1]

/-- **Without a reaction, a visit leaves the level as it is.** -/
theorem visit_calm (hclear : TextsClear ts)
    (h : ∀ t, ts[i]? = some t → t.kind = .inline → ¬ Reacts ts i t) : visit ts i = (ts, i + 1) := by
  by_cases hinline : ∃ t, ts[i]? = some t ∧ t.kind = .inline
  · obtain ⟨t, ht, hk⟩ := hinline
    have hcalm := h t ht hk
    rw [visit_clear ht hk (hclear t (List.mem_of_getElem? ht) hk)]
    split
    · rename_i hstarts
      split
      · rename_i hrest
        have hall : IsAll ts i := by
          by_contra hmore
          exact hcalm (.blank hstarts hrest hmore)
        unfold IsAll at hall
        unfold takeOutBlock
        split at hall
        · rename_i hwrapped
          simp [hwrapped, hall]
        · rename_i hbare
          simp [hbare, hall]
      · split
        · rename_i hopens
          have hnone : placeFrom? endsAcross (i + 1) ts = none := by
            rw [placeFrom?_eq_none_iff]
            intro j u hj hu
            by_contra hends
            exact hcalm (.unclosed hopens hj hu (by simpa using hends))
          rw [takeOutAcross, hnone]
        · rfl
    · rfl
  · exact visit_of_kind_ne fun t ht hk => hinline ⟨t, ht, hk⟩

theorem levelFrom_calm (hclear : TextsClear ts)
    (h : ∀ i t, ts[i]? = some t → t.kind = .inline → ¬ Reacts ts i t) (steps i : Nat) :
    levelFrom steps i ts = ts := by
  induction steps generalizing i with
  | zero => rfl
  | succ steps ih =>
    rw [levelFrom, visit_calm hclear (h i)]
    exact ih (i + 1)

/-! ## How much there is on a level -/

/-- The characters and the tokens of a level. -/
def size (ts : List Token) : Nat := contentSize ts + ts.length

theorem size_le_of_sublist (h : List.Sublist us ts) : size us ≤ size ts :=
  Nat.add_le_add (contentSize_le_of_sublist h) h.length_le

theorem size_lt_of_sublist (h : List.Sublist us ts) (hlt : us.length < ts.length) :
    size us < size ts :=
  Nat.add_lt_add_of_le_of_lt (contentSize_le_of_sublist h) hlt

theorem size_modify {f : Token → Token} (ht : ts[i]? = some t) :
    size (ts.modify i f) + t.content.length = size ts + (f t).content.length := by
  have hcontent := contentSize_modify (f := f) ht
  rw [size, size, List.length_modify]
  omega

theorem size_map_children (f : Token → Option (List Token)) (ts : List Token) :
    size (ts.map fun t => { t with children := f t }) = size ts := by
  induction ts with
  | nil => rfl
  | cons t ts ih =>
    simp only [size, List.map_cons, contentSize, List.length_cons] at ih ⊢
    omega

/-! ### Texts get shorter -/

theorem length_trimmedEnd_le (x : String) : (trimmedEnd x).length ≤ x.length := by
  obtain ⟨n, hn⟩ := exists_dropEndWhile_eq_take isBlank x.toList
  rw [trimmedEnd, trimEnd, hn, String.length_ofList, List.length_take, ← String.length_toList]
  exact Nat.min_le_right _ _

theorem length_trimmedStart_le (x : String) : (trimmedStart x).length ≤ x.length := by
  rw [trimmedStart, trimStart, String.length_ofList, ← String.length_toList]
  exact (List.dropWhile_sublist _).length_le

theorem length_content_cutHead_lt (h : isDangling (readable t) = true)
    (hne : trimmedEnd (headOf (readable t)) ≠ "") :
    (cutHead (trimmedEnd (headOf (readable t))) t).content.length < t.content.length := by
  rw [cutHead, if_neg (by simpa using hne)]
  exact (length_trimmedEnd_le _).trans_lt ((length_headOf_lt h).trans_le (length_readable_le t))

theorem length_content_cutHead_le (h : isDangling (readable t) = true) :
    (cutHead (trimmedEnd (headOf (readable t))) t).content.length ≤ t.content.length := by
  by_cases hempty : trimmedEnd (headOf (readable t)) = ""
  · rw [cutHead, if_pos (by simpa using hempty)]
  · exact Nat.le_of_lt (length_content_cutHead_lt h hempty)

theorem length_content_cutTail_le (t : Token) :
    (cutTail (trimmedStart (tailOf (readable t))) t).content.length ≤ t.content.length := by
  unfold cutTail
  split
  · exact Nat.le_refl _
  · exact (length_trimmedStart_le _).trans ((length_tailOf_le _).trans (length_readable_le t))

theorem length_content_closeUpToken_le (t : Token) :
    (closeUpToken t).content.length ≤ t.content.length := by
  have hremove : (remove (readable t)).length ≤ t.content.length :=
    (length_remove_le _).trans (length_readable_le t)
  unfold closeUpToken
  split
  · exact Nat.le_refl _
  · split
    · exact hremove
    · exact Nat.le_refl _

/-! ### Levels get smaller -/

theorem size_takeOutBlock_lt (hi : i < ts.length) (h : ¬ IsAll ts i) :
    size (takeOutBlock ts i).1 < size ts := by
  refine size_lt_of_sublist (takeOutBlock_sublist ts i) ?_
  unfold IsAll at h
  unfold takeOutBlock
  split at h
  · rename_i hwrapped
    simp [hwrapped, h]
    omega
  · rename_i hbare
    simp [hbare, h]
    omega

theorem length_filterPlaces_lt {keep : Token → Nat → Bool} (ht : ts[i]? = some t)
    (hkeep : keep t i = false) : (filterPlaces keep ts).length < ts.length := by
  obtain ⟨front, v, back, rfl, rfl⟩ := exists_split (List.getElem?_eq_some_iff.mp ht).1
  obtain rfl : v = t := by simpa using ht
  have hfront := (filterPlacesFrom_sublist keep 0 front).length_le
  have hback := (filterPlacesFrom_sublist keep (front.length + 1) back).length_le
  rw [← filterPlacesFrom_zero, filterPlacesFrom_append, Nat.zero_add, filterPlacesFrom_cons, hkeep,
    if_neg Bool.false_ne_true, List.length_append, List.length_append, List.length_cons]
  omega

/-- The two texts that are cut get no longer, and the first gets shorter if something stays of it. -/
theorem size_cutEnds (ht : ts[i]? = some t) (hu : ts[j]? = some u) (hij : i < j)
    (hopen : isDangling (readable t) = true) :
    let head := trimmedEnd (headOf (readable t))
    let cut := cutEnds ts i j head (trimmedStart (tailOf (readable u)))
    size cut ≤ size ts ∧ (head ≠ "" → size cut < size ts) := by
  intro head cut
  have hfirst := size_modify (f := cutTail (trimmedStart (tailOf (readable u)))) hu
  rw [← List.getElem?_modify_ne (cutTail (trimmedStart (tailOf (readable u)))) ts
    (Nat.ne_of_gt hij)] at ht
  have hsecond : size cut + t.content.length = _ + (cutHead head t).content.length := size_modify ht
  have htail := length_content_cutTail_le u
  constructor
  · have hhead : (cutHead head t).content.length ≤ _ := length_content_cutHead_le hopen
    omega
  · intro hne
    have hhead : (cutHead head t).content.length < _ := length_content_cutHead_lt hopen hne
    omega

theorem size_takeOutAcross_le (ht : ts[i]? = some t) (hopen : isDangling (readable t) = true) :
    size (takeOutAcross ts i (readable t)).1 ≤ size ts := by
  unfold takeOutAcross
  split
  · exact Nat.le_refl _
  · rename_i j hj
    obtain ⟨u, hu, -, hij⟩ := placeFrom?_some hj
    simp only [hu, Option.map_some, Option.getD_some]
    exact (size_le_of_sublist (filterPlaces_sublist _ _)).trans (size_cutEnds ht hu hij hopen).1

/-- A text of which nothing stays lies in the range. -/
theorem coveredRange_spec (ts : List Token) (hij : i < j) (tail : String) :
    (coveredRange ts i j "" tail).1 ≤ i ∧ i < (coveredRange ts i j "" tail).2 := by
  constructor
  · simp only [coveredRange]
    split
    · rename_i h
      cases h
    · split <;> omega
  · simp only [coveredRange]
    split
    · exact hij
    · split <;> omega

/-- A comment that is left open and ended later takes something with it. -/
theorem size_takeOutAcross_lt (ht : ts[i]? = some t) (hn : t.nesting = .selfClosing)
    (hopen : isDangling (readable t) = true) (hends : placeFrom? endsAcross (i + 1) ts = some j) :
    size (takeOutAcross ts i (readable t)).1 < size ts := by
  obtain ⟨u, hu, -, hij⟩ := placeFrom?_some hends
  obtain ⟨hle, hlt⟩ := size_cutEnds ht hu hij hopen
  unfold takeOutAcross
  simp only [hends, hu, Option.map_some, Option.getD_some]
  by_cases hhead : trimmedEnd (headOf (readable t)) = ""
  · refine (size_lt_of_sublist (filterPlaces_sublist _ _) ?_).trans_le hle
    have hhere : (cutEnds ts i j (trimmedEnd (headOf (readable t)))
        (trimmedStart (tailOf (readable u))))[i]?
          = some (cutHead (trimmedEnd (headOf (readable t))) t) := by
      rw [cutEnds, List.getElem?_modify_eq, List.getElem?_modify_ne _ _ (Nat.ne_of_gt hij), ht]
      rfl
    apply length_filterPlaces_lt hhere
    obtain ⟨hstart, hstop⟩ := coveredRange_spec ts hij (trimmedStart (tailOf (readable u)))
    rw [hhead, canGo, nesting_cutHead, hn]
    simp [hstart, hstop]
  · exact (size_le_of_sublist (filterPlaces_sublist _ _)).trans_lt (hlt hhead)

/-! ## A visit, and a level -/

theorem size_visit_le (ts : List Token) (i : Nat) : size (visit ts i).1 ≤ size ts := by
  unfold visit
  split
  · exact Nat.le_refl _
  · rename_i t ht
    split
    · dsimp only
      have hclosed : size (ts.set i (closeUpToken t)) ≤ size ts := by
        have hsize := size_modify (f := closeUpToken) ht
        have hlength := length_content_closeUpToken_le t
        rw [set_eq_modify closeUpToken ht]
        omega
      have ht' : (ts.set i (closeUpToken t))[i]? = some (closeUpToken t) :=
        List.getElem?_set_self (List.getElem?_eq_some_iff.mp ht).1
      refine Nat.le_trans ?_ hclosed
      split
      · exact size_le_of_sublist (takeOutBlock_sublist _ i)
      · split
        · rename_i hopens
          exact size_takeOutAcross_le ht' hopens
        · exact Nat.le_refl _
    · exact Nat.le_refl _

/-- **A reaction takes something from the level.** -/
theorem size_visit_lt (hclear : TextsClear ts) (ht : ts[i]? = some t) (hk : t.kind = .inline)
    (hn : t.nesting = .selfClosing) (h : Reacts ts i t) : size (visit ts i).1 < size ts := by
  rw [visit_clear ht hk (hclear t (List.mem_of_getElem? ht) hk)]
  cases h with
  | blank hstarts hrest hmore =>
    rw [if_pos hstarts, if_pos hrest]
    exact size_takeOutBlock_lt (List.getElem?_eq_some_iff.mp ht).1 hmore
  | @unclosed hopens j u hij hu hends =>
    have hstarts : hasStart (readable t) = true := by
      by_contra hnone
      rw [isDangling_eq_false (by simpa using hnone)] at hopens
      cases hopens
    rw [if_pos hstarts, if_neg (trimmedEnd_remove_ne hopens), if_pos hopens]
    cases hplace : placeFrom? endsAcross (i + 1) ts with
    | some j => exact size_takeOutAcross_lt ht hn hopens hplace
    | none =>
      rw [placeFrom?_eq_none_iff.mp hplace j u hij hu] at hends
      cases hends

theorem size_levelFrom_le (steps i : Nat) (ts : List Token) :
    size (levelFrom steps i ts) ≤ size ts := by
  induction steps generalizing i ts with
  | zero => exact Nat.le_refl _
  | succ steps ih =>
    rw [levelFrom]
    exact (ih _ _).trans (size_visit_le ts i)

/-- Up to the first reaction nothing happens, and from there on the level is smaller. -/
theorem size_levelFrom_lt (hclear : TextsClear ts)
    (hself : ∀ t ∈ ts, t.kind = .inline → t.nesting = .selfClosing) {k : Nat} (hk : ts[k]? = some t)
    (hinline : t.kind = .inline) (h : Reacts ts k t) :
    ∀ steps i : Nat, i ≤ k → k < i + steps → size (levelFrom steps i ts) < size ts
  | 0, i, hlo, hhi => absurd hhi (Nat.not_lt.mpr hlo)
  | steps + 1, i, hlo, hhi => by
    rw [levelFrom]
    by_cases hreacts : ∃ u, ts[i]? = some u ∧ u.kind = .inline ∧ Reacts ts i u
    · obtain ⟨u, hu, huk, hreacts⟩ := hreacts
      have hself' := hself u (List.mem_of_getElem? hu) huk
      exact (size_levelFrom_le steps _ _).trans_lt (size_visit_lt hclear hu huk hself' hreacts)
    · have hne : i ≠ k := by
        rintro rfl
        exact hreacts ⟨t, hk, hinline, h⟩
      rw [visit_calm hclear fun u hu huk hr => hreacts ⟨u, hu, huk, hr⟩]
      exact size_levelFrom_lt hclear hself hk hinline h steps (i + 1) (by omega) (by omega)

theorem size_removeFromLevel_lt (hclear : TextsClear ts)
    (hself : ∀ t ∈ ts, t.kind = .inline → t.nesting = .selfClosing) (hi : ts[i]? = some t)
    (hinline : t.kind = .inline) (h : Reacts ts i t) : size (removeFromLevel ts) < size ts := by
  have hlt := (List.getElem?_eq_some_iff.mp hi).1
  exact size_levelFrom_lt hclear hself hi hinline h ts.length 0 (Nat.zero_le i) (by omega)

/-! ## A document -/

/-- An `inline` token stands on the top level, and neither opens nor closes anything. -/
def IsTopText (parent? : Option Kind) (t : Token) : Prop :=
  t.kind = .inline → parent? = none ∧ t.nesting = .selfClosing

theorem everywhere_isTopText (d : Document) (acceptance : Markdown.Acceptance) (superscript : Bool) :
    Everywhere IsTopText (d.tokens acceptance superscript) := by
  refine Markdown.everywhere_tokens (p := fun _ => true) d.text acceptance superscript
    (fun t hb hk => absurd hk hb.kind_ne_inline) (fun _ _ _ => ⟨rfl, rfl⟩) (fun t hl hk => ?_)
    (fun _ => nofun) d.tree.all_true
  cases hl with
  | «break» hbreak => rcases hbreak with rfl | rfl <;> cases hk
  | _ => cases hk

/-- A level below a token, and all levels below it, without text of blocks. -/
abbrev HoldsNoText (kind : Kind) (ts : List Token) : Prop :=
  HoldsAt (fun parent? ts => ∀ t ∈ ts, IsTopText parent? t) (some kind) ts

/-- Tokens stay as they are if the levels below them do. -/
theorem map_removeTo_children (depth : Nat)
    (hb : HoldBelow (fun parent? ts => ∀ t ∈ ts, IsTopText parent? t) ts)
    (hsame : ∀ {kind : Kind} {cs : List Token}, HoldsNoText kind cs → removeTo depth cs = cs) :
    (ts.map fun t => { t with children := t.children.map (removeTo depth) }) = ts := by
  have hid : ∀ t ∈ ts, { t with children := t.children.map (removeTo depth) } = t := by
    intro t ht
    have hbelow := Token.holdsBelow_iff.mp (holdBelow_iff.mp hb t ht)
    obtain ⟨kind, tag, nesting, attrs, content, info, markup, children, block, hidden⟩ := t
    cases children with
    | none => rfl
    | some cs =>
      have hcs : removeTo depth cs = cs := hsame (hbelow cs rfl)
      simp only [Option.map_some, hcs]
  rw [List.map_congr_left hid, List.map_id']

/-- There is nothing to do below the top level. -/
theorem removeTo_below (depth : Nat) {kind : Kind} (h : HoldsNoText kind ts) :
    removeTo depth ts = ts := by
  have hleaves {kind : Kind} {ts : List Token} (h : HoldsNoText kind ts) :
      removeFromLevel ts = ts := by
    apply removeFromLevel_leaves
    intro t ht hk
    cases (h.1 t ht hk).1
  induction depth generalizing kind ts with
  | zero => exact hleaves h
  | succ depth ih =>
    rw [removeTo, hleaves h]
    exact map_removeTo_children depth h.2 ih

theorem removeAll_eq_self (h : Everywhere IsTopText ts) (hlevel : removeFromLevel ts = ts) :
    removeAll ts = ts := by
  unfold removeAll
  cases levelDepth ts with
  | zero => exact hlevel
  | succ depth =>
    rw [removeTo, hlevel]
    exact map_removeTo_children depth h.2 (removeTo_below depth)

theorem size_removeAll (ts : List Token) : size (removeAll ts) = size (removeFromLevel ts) := by
  unfold removeAll
  cases levelDepth ts with
  | zero => rfl
  | succ depth => exact size_map_children _ _

/-- **When a document is left as it is.** If no text token of it starts a comment, the comment rule
changes it just if some text of a block is taken for a comment, or for the start of one. -/
theorem comments_leave_iff (c : Conditions) (hc : c.html = false) (d : Document)
    (acceptance : Markdown.Acceptance) (superscript : Bool) (slugs : Slug.Registry)
    (hclear : TextsClear (d.tokens acceptance superscript)) :
    let ts := d.tokens acceptance superscript
    (Rule.run c .comments ⟨ts, slugs⟩).tokens = ts
      ↔ ∀ i t, ts[i]? = some t → t.kind = .inline → ¬ Reacts ts i t := by
  intro ts
  have hall := everywhere_isTopText d acceptance superscript
  have hself : ∀ t ∈ ts, t.kind = .inline → t.nesting = .selfClosing :=
    fun t ht hk => (hall.1 t ht hk).2
  have hrun : (Rule.run c .comments ⟨ts, slugs⟩).tokens = removeAll ts := by
    simp [Rule.run, hc]
  rw [hrun]
  constructor
  · intro hsame i t ht hk hreacts
    have hlt := size_removeFromLevel_lt hclear hself ht hk hreacts
    rw [← size_removeAll, hsame] at hlt
    exact Nat.lt_irrefl _ hlt
  · intro hcalm
    exact removeAll_eq_self hall (levelFrom_calm hclear hcalm ts.length 0)

/-- A document with a comment in code, and nothing else in it that the rule looks at. -/
def commentInCode : Document where
  source := "a `<!-- x -->` b"
  tree := .root (some ⟨0, 16⟩) [.paragraph (some ⟨0, 16⟩) [.text (some ⟨0, 2⟩) "a ",
    .inlineCode (some ⟨2, 14⟩) "<!-- x -->", .text (some ⟨14, 16⟩) " b"]]

theorem comments_leave_commentInCode :
    let ts := commentInCode.tokens .lenient false
    TextsClear ts ∧ (∃ t ∈ ts, t.kind = .inline ∧ hasStart (readable t) = true)
      ∧ (Rule.run ⟨false, false⟩ .comments ⟨ts, {}⟩).tokens = ts := by
  intro ts
  have hclear : TextsClear ts := by decide +kernel
  have hstarts : ∃ t ∈ ts, t.kind = .inline ∧ hasStart (readable t) = true := by decide +kernel
  have hread : ∀ t ∈ ts, t.kind = .inline → readable t = "a `<!-- x -->` b" := by decide +kernel
  refine ⟨hclear, hstarts, ?_⟩
  apply (comments_leave_iff ⟨false, false⟩ rfl commentInCode .lenient false {} hclear).mpr
  intro i t ht hk hreacts
  have hcontent := hread t (List.mem_of_getElem? ht) hk
  cases hreacts with
  | blank _ hrest _ =>
    have hrests : trimmedEnd (remove "a `<!-- x -->` b") ≠ "" := by decide +kernel
    exact hrests (hcontent ▸ hrest)
  | unclosed hopens _ _ _ =>
    have hcloses : isDangling "a `<!-- x -->` b" = false := by decide +kernel
    rw [hcontent, hcloses] at hopens
    cases hopens

/-- A document with the two marks of a comment in the code of two paragraphs. -/
def marksInCode : Document where
  source := "a `<!--` b\n\nc\n\nd `-->` e"
  tree := .root (some ⟨0, 24⟩)
    [.paragraph (some ⟨0, 10⟩)
        [.text (some ⟨0, 2⟩) "a ", .inlineCode (some ⟨2, 8⟩) "<!--", .text (some ⟨8, 10⟩) " b"],
      .paragraph (some ⟨12, 13⟩) [.text (some ⟨12, 13⟩) "c"],
      .paragraph (some ⟨15, 24⟩)
        [.text (some ⟨15, 17⟩) "d ", .inlineCode (some ⟨17, 22⟩) "-->", .text (some ⟨22, 24⟩) " e"]]

/-- Marks in code count: no text token starts a comment, and yet the paragraph between the two is
taken out. -/
theorem reacts_in_code :
    let ts := marksInCode.tokens .lenient false
    let left := (Rule.run ⟨false, false⟩ .comments ⟨ts, {}⟩).tokens
    marksInCode.tree.all Markdown.Node.isMarkdown = true ∧ TextsClear ts ∧ left ≠ ts
      ∧ ts.map Token.content = ["", "a `<!--` b", "", "", "c", "", "", "d `-->` e", ""]
      ∧ left.map Token.content = ["", "a `", "", "", "` e", ""] := by
  decide +kernel

end MarkdownPreview.Comment
