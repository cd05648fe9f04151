import MarkdownPreview.Proofs.Lowering.Superscripts
import MarkdownPreview.Proofs.Rules.Run
import MarkdownPreview.Proofs.Variables.Decomposition

/-!
# What is highlighted where superscripts are read

The highlights that come out can be read off the HTML (`highlightsOf`). Without superscripts they
are the variables of the text (`highlightsOf_highlight`). Where superscripts are read, the caret of a
mark may have found another partner, and then another name is shown: of `<^>a b<^>c<^>` it is `c`,
since `>a b<` has a blank and is not raised.

But each name that is shown stands between two marks, and no mark serves for two of them
(`Selects`). So there are no more names than the text has variables, and a text without variables
is left alone (`shownIn_raiseAll`). All this takes that a run which is put together comes from two
marks with something between them (`KeepsMarks`); `rejoin` does not look at the texts around it.
-/

set_option autoImplicit false

namespace MarkdownPreview

open Text

namespace Variable

variable {cs first html front back : List Char} {name : String}
  {t before up raised down after : Token} {ts us ts' us' : List Token}
  {names names' : List (List Char)}

/-! ## Reading highlights -/

def spanStart : List Char := "<span class=\"highlight\">".toList

def spanEnd : List Char := "</span>".toList

/-- Recognises a highlight in HTML and reads what is in it. -/
def spanned : Recogniser Char (List Char) := fun _ cs =>
  match spanStart.isPrefixOf? cs with
  | some rest => (cut? spanEnd rest).map fun (html, _) =>
    ⟨html, (spanStart ++ (html ++ spanEnd)).length - 1⟩
  | none => none

/-- What is highlighted in a piece of HTML, in order. -/
def highlightsOf (html : String) : List (List Char) :=
  (pieces spanned html.toList).rest.map Prod.fst

/-- What is highlighted in the finished HTML of a level. -/
def highlightsIn (ts : List Token) : List (List Char) :=
  ts.flatMap fun t => if t.kind = .htmlBlock then highlightsOf t.content else []

theorem spanStart_eq : spanStart = '<' :: spanStart.tail := by decide

theorem spanEnd_eq : spanEnd = '<' :: spanEnd.tail := by decide

theorem steady_spanned : Steady spanned := fun _ _ => rfl

theorem spanned_miss {c : Char} (hc : c ≠ '<') (cs : List Char) : spanned true (c :: cs) = none := by
  have hnone : spanStart.isPrefixOf? (c :: cs) = none := by
    rw [isPrefixOf?_eq_none_iff, spanStart_eq]
    intro h
    exact hc (List.cons_prefix_cons.mp h).1.symm
  rw [spanned, hnone]

theorem misses_spanned (h : '<' ∉ first) (cs : List Char) : Misses spanned first cs :=
  .of_not_mem (fun _ cs hc => spanned_miss hc cs) h cs

theorem spanned_hit (h : '<' ∉ html) (rest : List Char) :
    spanned true (spanStart ++ (html ++ (spanEnd ++ rest)))
      = some ⟨html, (spanStart ++ (html ++ spanEnd)).length - 1⟩ := by
  have hcut : cut? spanEnd (html ++ (spanEnd ++ rest)) = some (html, rest) := by
    apply cut?_first (by decide)
    intro s hs hne hend
    match s, hne with
    | c :: s, _ =>
      rw [spanEnd_eq] at hend
      have hc : '<' = c := (List.cons_prefix_cons.mp hend).1
      exact h (hs.subset (hc ▸ List.mem_cons_self))
  have hstart : spanStart.isPrefixOf? (spanStart ++ (html ++ (spanEnd ++ rest)))
      = some (html ++ (spanEnd ++ rest)) := List.isPrefixOf?_eq_some_iff_append_eq.mpr rfl
  simp only [spanned, hstart, hcut, Option.map_some]

/-- A highlight is read off what stands before it and what comes behind. -/
theorem cuts_spanned {rest : List Char} {p : Cut} (hfirst : '<' ∉ first) (hhtml : '<' ∉ html)
    (h : Cuts spanned rest p) :
    Cuts spanned (first ++ (spanStart ++ (html ++ (spanEnd ++ rest))))
      ⟨first, (html, p.first) :: p.rest⟩ := by
  have hhit := spanned_hit hhtml rest
  obtain ⟨tail, htail⟩ : ∃ tail, spanStart = '<' :: tail := ⟨_, spanStart_eq⟩
  have hdrop : (tail ++ (html ++ (spanEnd ++ rest))).drop (tail ++ (html ++ spanEnd)).length
      = rest := by
    have hsplit : tail ++ (html ++ (spanEnd ++ rest)) = tail ++ (html ++ spanEnd) ++ rest := by simp
    rw [hsplit, List.drop_left]
  rw [htail, List.cons_append, List.cons_append, List.length_cons, Nat.add_sub_cancel] at hhit
  rw [htail, List.cons_append]
  refine .next (misses_spanned hfirst _) hhit ?_
  rw [hdrop]
  exact h

theorem toList_append_append (front text back : String) :
    (front ++ text ++ back).toList = front.toList ++ (text.toList ++ back.toList) := by
  rw [String.toList_append, String.toList_append, List.append_assoc]

theorem toList_span (html : String) :
    (span html).toList = spanStart ++ (html.toList ++ spanEnd) :=
  toList_append_append "<span class=\"highlight\">" html "</span>"

/-- What is highlighted in finished HTML is its variables, if escapers leave no `<` behind. -/
theorem highlightsOf_highlight {plain name : String → String} (hplain : ∀ s, '<' ∉ (plain s).toList)
    (hname : ∀ s, '<' ∉ (name s).toList) (text : String) :
    highlightsOf (highlight plain name text)
      = (pieces markedName text.toList).rest.map fun run => (name (String.ofList run.1)).toList := by
  have hcuts : ∀ (first : List Char) (rest : List (List Char × List Char)),
      Cuts spanned ((plain (String.ofList first)).toList ++ (String.join (rest.map fun (n, after) =>
          span (name (String.ofList n)) ++ plain (String.ofList after))).toList)
        ⟨(plain (String.ofList first)).toList, rest.map fun run =>
          ((name (String.ofList run.1)).toList, (plain (String.ofList run.2)).toList)⟩ := by
    intro first rest
    induction rest generalizing first with
    | nil =>
      rw [List.map_nil, String.join_nil, String.toList_empty, List.append_nil]
      exact .last (misses_spanned (hplain _) [])
    | cons run rest ih =>
      rw [List.map_cons, String.join_cons, String.toList_append, String.toList_append, toList_span,
        List.append_assoc, List.append_assoc, List.append_assoc]
      exact cuts_spanned (hplain _) (hname _) (ih run.2)
  rw [highlightsOf, highlight, String.toList_append, ← steady_spanned.cuts_iff.mp (hcuts _ _),
    List.map_map]
  rfl

theorem highlightsOf_span {html : String} (h : '<' ∉ html.toList) :
    highlightsOf (span html) = [html.toList] := by
  have hnil : Cuts spanned [] ⟨[], []⟩ := .last (misses_spanned List.not_mem_nil [])
  have hcuts := cuts_spanned List.not_mem_nil h hnil
  rw [List.append_nil, List.nil_append] at hcuts
  rw [highlightsOf, toList_span, ← steady_spanned.cuts_iff.mp hcuts]
  rfl

/-! ## The tokens of a raised text -/

/-- A name as it is written in a highlight. -/
def escapedName (name : List Char) : List Char := (Prose.escape (String.ofList name)).toList

theorem highlightsOf_highlight_escape (text : String) :
    highlightsOf (highlight Prose.escape Prose.escape text)
      = (pieces markedName text.toList).rest.map fun run => escapedName run.1 :=
  highlightsOf_highlight (fun s => (Prose.not_mem_escape s).1)
    (fun s => (Prose.not_mem_escape s).1) text

theorem highlightsOf_raisedHtml (name : String) :
    highlightsOf (raisedHtml name).content = [escapedName name.toList] := by
  rw [escapedName, String.ofList_toList]
  exact highlightsOf_span (Prose.not_mem_escape name).1

theorem highlightsIn_nil : highlightsIn [] = [] := rfl

theorem highlightsIn_html (html : String) (ts : List Token) :
    highlightsIn (Token.html html :: ts) = highlightsOf html ++ highlightsIn ts := rfl

theorem highlightsIn_append (ts us : List Token) :
    highlightsIn (ts ++ us) = highlightsIn ts ++ highlightsIn us := List.flatMap_append

/-- Whether a token is one of those that raising makes of a text. -/
def IsPart (t : Token) : Prop :=
  t.kind = .text ∨ t.kind = .opening .sup ∨ t.kind = .closing .sup

/-- The text that a token was read from. -/
def source (ts : List Token) : List Char := ts.flatMap (Markdown.writeBack fun _ => [])

theorem source_cons_text (hk : t.kind = .text) (ts : List Token) :
    source (t :: ts) = t.content.toList ++ source ts := by
  rw [source, List.flatMap_cons, Markdown.writeBack, if_pos hk]
  rfl

theorem source_cons_sup (hk : t.kind = .opening .sup ∨ t.kind = .closing .sup) (ts : List Token) :
    source (t :: ts) = '^' :: source ts := by
  have htext : t.kind ≠ .text := by
    rcases hk with hk | hk <;> rw [hk] <;> exact nofun
  rw [source, List.flatMap_cons, Markdown.writeBack, if_neg htext, if_pos hk]
  rfl

/-- In place of the tokens `ts` there are the tokens `us`, and they show these names. -/
structure Shows (ts us : List Token) (names : List (List Char)) : Prop where
  selects : Selects (source ts) names
  shown : highlightsIn us = names.map escapedName
  kept : names = [] → us = ts

theorem Shows.append (h : Shows ts us names) (h' : Shows ts' us' names') :
    Shows (ts ++ ts') (us ++ us') (names ++ names') where
  selects := by
    rw [source, List.flatMap_append]
    exact h.selects.append h'.selects
  shown := by
    rw [highlightsIn_append, List.map_append, h.shown, h'.shown]
  kept := by
    intro hnil
    obtain ⟨hnames, hnames'⟩ := List.append_eq_nil_iff.mp hnil
    rw [h.kept hnames, h'.kept hnames']

theorem shows_self (hk : t.kind ≠ .htmlBlock) : Shows [t] [t] [] where
  selects := .none _
  shown := by
    rw [highlightsIn, List.flatMap_singleton, if_neg hk, List.map_nil]
  kept := fun _ => rfl

/-- Of a single token, the variables are shown. -/
theorem shows_highlightToken (h : IsPart t) : ∃ names, Shows [t] [highlightToken t] names := by
  by_cases hocc : t.kind = .text ∧ occurs t.content = true
  · obtain ⟨hk, hocc⟩ := hocc
    have htoken : highlightToken t
        = Token.html (highlight Prose.escape Prose.escape t.content) := by
      simp only [highlightToken, hk]
      rw [if_pos hocc]
    refine ⟨(pieces markedName t.content.toList).rest.map Prod.fst, ?_, ?_, ?_⟩
    · rw [source, List.flatMap_singleton, Markdown.writeBack, if_pos hk]
      exact selects_of_cuts (steady_markedName.cuts _)
    · rw [htoken, highlightsIn_html, highlightsIn_nil, List.append_nil, List.map_map]
      exact highlightsOf_highlight_escape t.content
    · intro hnil
      rw [occurs, occurs_eq, List.map_eq_nil_iff.mp hnil] at hocc
      cases hocc
  · refine ⟨[], ?_⟩
    have htoken : highlightToken t = t := by
      rcases h with hk | hk | hk
      · have hnone : ¬occurs t.content = true := fun h => hocc ⟨hk, h⟩
        simp only [highlightToken, hk]
        rw [if_neg hnone]
      · simp only [highlightToken, hk]
      · simp only [highlightToken, hk]
    rw [htoken]
    apply shows_self
    rcases h with hk | hk | hk <;> simp [hk]

theorem shows_map (h : ∀ t ∈ ts, IsPart t) : ∃ names, Shows ts (ts.map highlightToken) names := by
  induction ts with
  | nil => exact ⟨[], .none _, rfl, fun _ => rfl⟩
  | cons t ts ih =>
    rw [List.forall_mem_cons] at h
    obtain ⟨names, ht⟩ := shows_highlightToken h.1
    obtain ⟨names', hts⟩ := ih h.2
    exact ⟨names ++ names', ht.append hts⟩

/-! ## Runs between two marks -/

/-- If the run after `before` is put together, then there is a name in it, and the texts on both
sides have the other brackets of its marks. -/
def KeepsMarksAt (before : Token) : List Token → Prop
  | up :: raised :: down :: after :: _ => ∀ name ∈ takenApart? before up raised down after,
    name ≠ "" ∧ before.content.toList.getLast? = some '<' ∧ after.content.toList.head? = some '>'
  | _ => True

def KeepsMarks : List Token → Prop
  | [] => True
  | t :: ts => KeepsMarksAt t ts ∧ KeepsMarks ts

instance (before : Token) : ∀ ts, Decidable (KeepsMarksAt before ts)
  | [] | [_] | [_, _] | [_, _, _] => isTrue trivial
  | up :: raised :: down :: after :: _ => inferInstanceAs
    (Decidable (∀ name ∈ takenApart? before up raised down after, _ ∧ _ ∧ _))

instance KeepsMarks.decidable : ∀ ts, Decidable (KeepsMarks ts)
  | [] => isTrue trivial
  | t :: ts =>
    have := KeepsMarks.decidable ts
    inferInstanceAs (Decidable (KeepsMarksAt t ts ∧ KeepsMarks ts))

theorem raisedName?_eq_some {text name : String} (h : raisedName? text = some name) :
    text.toList = '>' :: (name.toList ++ ['<']) ∧ '\n' ∉ name.toList := by
  unfold raisedName? at h
  split at h
  · rename_i rest htext
    split at h
    · rename_i back hback
      split at h
      · cases h
      · rename_i hline
        obtain rfl := Option.some.inj h
        have hrest : rest = back.reverse ++ ['<'] := by
          rw [← List.reverse_reverse rest, hback, List.reverse_cons]
        rw [htext, hrest, String.toList_ofList, List.mem_reverse]
        exact ⟨rfl, by simpa using hline⟩
    · cases h
  · cases h

/-- A token goes on to keep the marks behind it without the bracket it started with. -/
theorem KeepsMarksAt.recut (hcs : t.content.toList = '>' :: cs) (h : KeepsMarksAt t ts) :
    KeepsMarksAt { t with content := String.ofList cs } ts := by
  match ts with
  | [] | [_] | [_, _] | [_, _, _] => trivial
  | up :: raised :: down :: after :: _ =>
    intro name hname
    obtain ⟨hne, hlast, hfirst⟩ := h name hname
    refine ⟨hne, ?_, hfirst⟩
    rw [hcs] at hlast
    show (String.ofList cs).toList.getLast? = some '<'
    rw [String.toList_ofList]
    cases cs with
    | nil => cases hlast
    | cons c cs => rwa [List.getLast?_cons_cons] at hlast

/-- Five tokens that a name between two marks has been taken apart to, with the texts before and
behind the marks. -/
structure IsMarkedRun (before up raised down after : Token) (front : List Char) (name : String)
    (back : List Char) : Prop where
  kind_before : before.kind = .text
  kind_up : up.kind = .opening .sup
  kind_raised : raised.kind = .text
  kind_down : down.kind = .closing .sup
  kind_after : after.kind = .text
  before_eq : before.content.toList = front ++ ['<']
  raised_eq : raised.content.toList = '>' :: (name.toList ++ ['<'])
  after_eq : after.content.toList = '>' :: back
  isName : IsName name.toList

/-- What has been raised has no carets, so there is no mark in a name either. -/
theorem isName_of_raised (hopens : Markdown.Opens (up :: raised :: ts))
    (hup : up.kind = .opening .sup) (hne : name ≠ "") (hline : '\n' ∉ name.toList)
    (hraised : raised.content.toList = '>' :: (name.toList ++ ['<'])) : IsName name.toList := by
  obtain ⟨body, _, hbody, hbehind⟩ := hopens [] up _ rfl hup
  obtain ⟨rfl, -⟩ := List.cons.inj hbehind
  rw [Token.text, String.toList_ofList] at hraised
  have hcaret : '^' ∉ name.toList := by
    intro hmem
    exact hbody.2.1 (hraised ▸ by simp [hmem])
  refine ⟨?_, hline, ?_⟩
  · rwa [ne_eq, String.toList_eq_nil_iff]
  · intro hmark
    exact hcaret (List.mem_of_mem_tail (hmark.subset (by simp [mark])))

theorem exists_isMarkedRun (hopens : Markdown.Opens (up :: raised :: down :: after :: ts))
    (hmarks : KeepsMarksAt before (up :: raised :: down :: after :: ts))
    (hname : takenApart? before up raised down after = some name) :
    ∃ front back, IsMarkedRun before up raised down after front name back := by
  obtain ⟨hb, hu, hr, hd, ha⟩ := kinds_of_takenApart? hname
  obtain ⟨hne, hlast, hfirst⟩ := hmarks name hname
  obtain ⟨front, hfront⟩ := List.getLast?_eq_some_iff.mp hlast
  obtain ⟨back, hback⟩ := List.head?_eq_some_iff.mp hfirst
  rw [takenApart?, if_pos ⟨hb, hu, hr, hd, ha⟩] at hname
  obtain ⟨hraised, hline⟩ := raisedName?_eq_some hname
  exact ⟨front, back, hb, hu, hr, hd, ha, hfront, hraised, hback,
    isName_of_raised hopens hu hne hline hraised⟩

theorem IsMarkedRun.rejoinFrom_eq (h : IsMarkedRun before up raised down after front name back)
    (hname : takenApart? before up raised down after = some name) (ts : List Token) :
    rejoinFrom before (up :: raised :: down :: after :: ts)
      = { before with content := String.ofList front } :: raisedHtml name
        :: rejoinFrom { after with content := String.ofList back } ts := by
  rw [rejoinFrom, hname]
  dsimp only
  rw [← String.ofList_toList (s := before.content), h.before_eq, dropLastBracket_ofList,
    ← String.ofList_toList (s := after.content), h.after_eq, dropFirstBracket_ofList]

theorem IsMarkedRun.source_eq (h : IsMarkedRun before up raised down after front name back)
    (ts : List Token) : source (before :: up :: raised :: down :: after :: ts)
      = front ++ (marked name.toList ++ (back ++ source ts)) := by
  rw [source_cons_text h.kind_before, source_cons_sup (.inl h.kind_up),
    source_cons_text h.kind_raised, source_cons_sup (.inr h.kind_down),
    source_cons_text h.kind_after, h.before_eq, h.raised_eq, h.after_eq]
  simp [marked, mark]

/-- Such a run shows its name between what the texts on both sides do. -/
theorem IsMarkedRun.shows (h : IsMarkedRun before up raised down after front name back)
    (hbefore : Shows [{ before with content := String.ofList front }] us names)
    (hafter : Shows ({ after with content := String.ofList back } :: ts) us' names') :
    Shows (before :: up :: raised :: down :: after :: ts) (us ++ raisedHtml name :: us')
      (names ++ name.toList :: names') where
  selects := by
    have hfront := hbefore.selects
    have hback := hafter.selects
    rw [source_cons_text (by exact h.kind_before), String.toList_ofList, source, List.flatMap_nil,
      List.append_nil] at hfront
    rw [source_cons_text (by exact h.kind_after), String.toList_ofList] at hback
    rw [h.source_eq]
    have hnext : Selects (marked name.toList ++ (back ++ source ts)) (name.toList :: names') :=
      .next [] h.isName hback
    exact hfront.append hnext
  shown := by
    show highlightsIn (us ++ Token.html (raisedHtml name).content :: us') = _
    rw [highlightsIn_append, highlightsIn_html, highlightsOf_raisedHtml, hbefore.shown,
      hafter.shown, List.map_append, List.map_cons]
    rfl
  kept := by simp

/-- **Putting runs together shows some pairs of the text they were read from.** -/
theorem shows_rejoinFrom (before : Token) (ts : List Token) (hparts : ∀ t ∈ before :: ts, IsPart t)
    (hopens : Markdown.Opens ts) (hmarks : KeepsMarks (before :: ts)) :
    ∃ names, Shows (before :: ts) ((rejoinFrom before ts).map highlightToken) names := by
  induction before, ts using rejoinFrom.induct with
  | case1 before up raised down after ts name hname ih =>
    obtain ⟨front, back, hrun⟩ := exists_isMarkedRun hopens hmarks.1 hname
    have hcut : dropFirstBracket after.content = String.ofList back := by
      rw [← String.ofList_toList (s := after.content), hrun.after_eq, dropFirstBracket_ofList]
    -- What follows is looked at with the text behind the run, which has lost its bracket.
    have hrest : KeepsMarksAt after ts ∧ KeepsMarks ts := hmarks.2.2.2.2
    have hparts' : ∀ t ∈ { after with content := String.ofList back } :: ts, IsPart t :=
      List.forall_mem_cons.mpr ⟨.inl hrun.kind_after, fun t ht => hparts t (by simp [ht])⟩
    rw [hcut] at ih
    obtain ⟨names', hafter⟩ := ih hparts' hopens.tail.tail.tail.tail
      ⟨hrest.1.recut hrun.after_eq, hrest.2⟩
    have hfront : IsPart { before with content := String.ofList front } := .inl hrun.kind_before
    obtain ⟨names, hbefore⟩ := shows_highlightToken hfront
    rw [hrun.rejoinFrom_eq hname]
    exact ⟨names ++ name.toList :: names', hrun.shows hbefore hafter⟩
  | case2 before up raised down after ts hname ih =>
    rw [List.forall_mem_cons] at hparts
    obtain ⟨names, hbefore⟩ := shows_highlightToken hparts.1
    obtain ⟨names', hrest⟩ := ih hparts.2 hopens.tail hmarks.2
    rw [rejoinFrom, hname]
    exact ⟨names ++ names', hbefore.append hrest⟩
  | case3 before ts hshort =>
    rw [rejoinFrom]
    · exact shows_map hparts
    · exact hshort

/-! ## The line of a text -/

theorem isPart_of_mem_raiseAll {text : String} :
    ∀ t ∈ Markdown.raiseAll [Token.text text], IsPart t := by
  intro t ht
  rw [Markdown.raiseAll, List.flatMap_singleton] at ht
  split at ht
  · exact Markdown.forall_mem_raiseText (fun _ => .inl rfl) (.inr (.inl rfl)) (.inr (.inr rfl)) _ t ht
  · rw [List.mem_singleton.mp ht]
    exact .inl rfl

theorem opens_raiseAll (text : String) : Markdown.Opens (Markdown.raiseAll [Token.text text]) := by
  rw [Markdown.raiseAll, List.flatMap_singleton]
  split
  · exact Markdown.opens_raiseText text
  · exact .of_forall (List.forall_mem_singleton.mpr (by simp [Token.text]))

theorem shows_rejoin (hparts : ∀ t ∈ ts, IsPart t) (hopens : Markdown.Opens ts)
    (hmarks : KeepsMarks ts) : ∃ names, Shows ts ((rejoin ts).map highlightToken) names := by
  cases ts with
  | nil => exact shows_map hparts
  | cons t ts => exact shows_rejoinFrom t ts hparts hopens.tail hmarks

/-- What is highlighted in a line after its variables have been. -/
def shownIn (line : Token) : List (List Char) :=
  (highlightAll [line]).flatMap fun t => highlightsIn t.inner

theorem highlightAll_line (content text : String) :
    highlightAll [Token.inline content (Markdown.raiseAll [Token.text text])]
      = [Token.inline content
          ((rejoin (Markdown.raiseAll [Token.text text])).map highlightToken)] := by
  have hbelow : mapBelow highlightLevel (Markdown.raiseAll [Token.text text])
      = Markdown.raiseAll [Token.text text] := mapBelow_raiseAll highlightLevel [Token.text text]
  show [Token.inline content ((rejoin (mapBelow highlightLevel _)).map highlightToken)] = _
  rw [hbelow]

theorem shownIn_line (content text : String) :
    shownIn (Token.inline content (Markdown.raiseAll [Token.text text]))
      = highlightsIn ((rejoin (Markdown.raiseAll [Token.text text])).map highlightToken) := by
  rw [shownIn, highlightAll_line, List.flatMap_singleton]
  rfl

/-- **Names shown where superscripts were read are names of the text.** They are those of some pairs
of marks, one pair after the other; there are no more of them than without superscripts; and if the
text has no variable, nothing is shown and every superscript stays. -/
theorem shownIn_raiseAll (content text : String)
    (h : KeepsMarks (Markdown.raiseAll [Token.text text])) :
    let line := Token.inline content (Markdown.raiseAll [Token.text text])
    (∃ names, Selects text.toList names ∧ shownIn line = names.map escapedName)
      ∧ (shownIn line).length ≤ (highlightsOf (highlight Prose.escape Prose.escape text)).length
      ∧ (occurs text = false → highlightAll [line] = [line]) := by
  intro line
  obtain ⟨names, hshows⟩ := shows_rejoin isPart_of_mem_raiseAll (opens_raiseAll text) h
  have hselects : Selects text.toList names := by
    have hselects := hshows.selects
    rwa [source, Markdown.flatMap_writeBack_raiseAll, ← source, source_cons_text rfl, source,
      List.flatMap_nil, List.append_nil] at hselects
  have hlength := hselects.length_le (steady_markedName.cuts text.toList)
  have hshown : shownIn line = names.map escapedName := by rw [shownIn_line, hshows.shown]
  refine ⟨⟨names, hselects, hshown⟩, ?_, ?_⟩
  · rw [hshown, highlightsOf_highlight_escape, List.length_map, List.length_map]
    exact hlength
  · intro hocc
    rw [occurs, occurs_eq, Bool.not_eq_false', List.isEmpty_iff] at hocc
    rw [hocc] at hlength
    rw [highlightAll_line, hshows.kept (List.eq_nil_of_length_eq_zero (Nat.le_zero.mp hlength))]

/-- Three marks, a superscript and a variable. -/
theorem shownIn_threeMarks :
    let text := "<^>a b<^>c<^> d^2^ <^>e<^>"
    let line := Token.inline text (Markdown.raiseAll [Token.text text])
    KeepsMarks (Markdown.raiseAll [Token.text text])
      ∧ (∃ names, Selects text.toList names ∧ shownIn line = names.map escapedName)
      ∧ (shownIn line).length ≤ (highlightsOf (highlight Prose.escape Prose.escape text)).length
      ∧ (occurs text = false → highlightAll [line] = [line]) := by
  intro text line
  have h : KeepsMarks (Markdown.raiseAll [Token.text text]) := by decide +kernel
  exact ⟨h, shownIn_raiseAll text text h⟩

/-- Where `a b` was to be shown, `c` is. -/
theorem shownIn_misled :
    let text := "<^>a b<^>c<^>"
    ¬(shownIn (Token.inline text (Markdown.raiseAll [Token.text text]))).Sublist
      (highlightsOf (highlight Prose.escape Prose.escape text)) := by
  intro text
  have hraised : Markdown.raiseAll [Token.text text] = [Token.text "<^>a b<",
      Token.spanOpening .sup "sup" "^", Token.text ">c<", Token.spanClosing .sup "sup" "^",
      Token.text ">"] := by decide +kernel
  have hapart : takenApart? (Token.text "<^>a b<") (Token.spanOpening .sup "sup" "^")
      (Token.text ">c<") (Token.spanClosing .sup "sup" "^") (Token.text ">") = some "c" := by
    decide +kernel
  have hrejoined : rejoin (Markdown.raiseAll [Token.text text])
      = [Token.text "<^>a b", raisedHtml "c", Token.text ""] := by
    rw [hraised, rejoin, rejoinFrom, hapart]
    dsimp only
    rw [rejoinFrom]
    · decide +kernel
    · simp
  have hshown : shownIn (Token.inline text (Markdown.raiseAll [Token.text text]))
      = ["c".toList] := by
    rw [shownIn_line, hrejoined]
    decide +kernel
  have htext : highlightsOf (highlight Prose.escape Prose.escape text) = ["a b".toList] := by
    decide +kernel
  rw [hshown, htext]
  decide

end Variable

end MarkdownPreview
