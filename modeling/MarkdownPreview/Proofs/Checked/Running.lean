import MarkdownPreview.Markdown.Raised
import MarkdownPreview.Proofs.Checked.Text
import MarkdownPreview.Proofs.Lowering.Cuts
import MarkdownPreview.Proofs.Variables.Raised

/-!
# Running text, with every slice checked

Two things are done to running text by places in it. Spaces at the end of a text are cut off where
the text without them ends. Raised runs are found by the places of their carets, and the text before,
between and after these are slices. Neither ever cuts through a character, whatever the text is, so
running text becomes the tokens that it is said to become (`inlineTokens?_eq`, `raiseAll?_eq`).
-/

set_option autoImplicit false

namespace MarkdownPreview.Checked

open Text Markdown

/-! ## Spaces at an end -/

def dropLastSpaces? : List Token → Option (List Token)
  | [] => some []
  | t :: ts =>
    if t.kind = .text then do
      let kept := dropEndWhile (· == ' ') t.content.toList
      let content ← truncate? (byteSize kept) t.content.toList
      return if content.isEmpty then ts else { t with content := String.ofList content } :: ts
    else some (t :: ts)

theorem dropLastSpaces?_eq (ts : List Token) : dropLastSpaces? ts = some (dropLastSpaces ts) := by
  cases ts with
  | nil => rfl
  | cons t ts =>
    rw [dropLastSpaces?, dropLastSpaces]
    split
    · dsimp only
      rw [truncate?_dropEndWhile]
      rfl
    · rfl

def addChar? (ts : List Token) (c : Char) : Option (List Token) :=
  if c = '\n' then (dropLastSpaces? ts).map (breakToken .softbreak :: ·) else some (addChar ts c)

theorem addChar?_eq (ts : List Token) (c : Char) : addChar? ts c = some (addChar ts c) := by
  rw [addChar?, dropLastSpaces?_eq]
  by_cases hc : c = '\n'
  · unfold addChar
    rw [if_pos hc, if_pos hc]
    rfl
  · rw [if_neg hc]

def addText? : List Token → List Char → Option (List Token)
  | ts, [] => some ts
  | ts, c :: cs => (addChar? ts c).bind fun ts => addText? ts cs

theorem addText?_eq (ts : List Token) (text : List Char) :
    addText? ts text = some (addText ts text) := by
  induction text generalizing ts with
  | nil => rw [addText?, addText_nil]
  | cons c cs ih => rw [addText?, addChar?_eq, Option.bind_some, ih, addText_cons]

/-! ## Nodes -/

def push? (l : Line) (text : List Char) : Option Line :=
  (addText? l.newest text).map fun newest => { l with newest }

def pushHardBreak? (l : Line) : Option Line :=
  (dropLastSpaces? l.newest).map fun ts => { l with newest := breakToken .hardbreak :: ts }

theorem push?_eq (l : Line) (text : List Char) : push? l text = some (l.push text) := by
  rw [push?, addText?_eq]
  rfl

theorem pushHardBreak?_eq (l : Line) : pushHardBreak? l = some l.pushHardBreak := by
  rw [pushHardBreak?, dropLastSpaces?_eq]
  rfl

mutual

/-- Adds the tokens of a node of running text. -/
def inline? (s : Setting) : Node → Line → Option Line
  | .text _ value, l => push? l value.toList
  | .lineBreak _, l => pushHardBreak? l
  | .emphasis e ns, l => do
    let markup := String.ofList ((s.slice e).take 1)
    let l ← inlines? s ns (l.add (Token.spanOpening .em "em" markup))
    return l.add (Token.spanClosing .em "em" markup)
  | .strong e ns, l => do
    let markup := String.ofList ((s.slice e).take 2)
    let l ← inlines? s ns (l.add (Token.spanOpening .strong "strong" markup))
    return l.add (Token.spanClosing .strong "strong" markup)
  | .delete _ ns, l => do
    let l ← inlines? s ns (l.add (Token.spanOpening .strikethrough "s" "~~"))
    return l.add (Token.spanClosing .strikethrough "s" "~~")
  | .link e url title? ns, l =>
    match LinkForm.ofSource (s.slice e) with
    | .angle => do
      let l ← inlines? s ns (l.add (linkOpening url none "autolink"))
      return l.add (linkClosing "autolink")
    | .bracket =>
      if s.acceptance.admits url then do
        let l ← inlines? s ns (l.add (linkOpening url title? ""))
        return l.add (linkClosing "")
      else match e with
        | none => some l
        | some e => do
          let l ← push? l ['[']
          let l ← inlines? s ns l
          push? l (s.afterLabel e ns)
    | .bare =>
      let address := s.slice e
      if s.acceptance = .lenient
          ∨ isExplicitAddress (String.ofList address) url = true ∧ l.insideAnchor = false then do
        let l ← inlines? s ns (l.add (linkOpening url none "linkify"))
        return l.add (linkClosing "linkify")
      else push? l address
  | .linkReference e identifier ns, l =>
    match s.resolve? identifier with
    | some d => do
      let l ← inlines? s ns (l.add (linkOpening d.url d.title? ""))
      return l.add (linkClosing "")
    | none => match e with
      | none => some l
      | some e => do
        let l ← push? l ['[']
        let l ← inlines? s ns l
        push? l (s.afterLabel e ns)
  | .image e url alt title?, l =>
    if s.acceptance.admits url then some (l.add (picture url alt title?)) else push? l (s.slice e)
  | .imageReference e identifier alt, l =>
    match s.resolve? identifier with
    | some d => some (l.add (picture d.url alt d.title?))
    | none => push? l (s.slice e)
  | n, l => some (inline s n l)

def inlines? (s : Setting) : List Node → Line → Option Line
  | [], l => some l
  | n :: ns, l => (inline? s n l).bind fun l => inlines? s ns l

end

/-- The tokens of running text. -/
def inlineTokens? (s : Setting) (ns : List Node) : Option (List Token) :=
  (inlines? s ns {}).map fun l => l.newest.reverse

mutual

theorem inline?_eq (s : Setting) : ∀ (n : Node) (l : Line),
    inline? s n l = some (Markdown.inline s n l)
  | .text _ _, l => by
    simp only [inline?, Markdown.inline, push?_eq]
  | .lineBreak _, l => by
    simp only [inline?, Markdown.inline, pushHardBreak?_eq]
  | .emphasis _ ns, l | .strong _ ns, l | .delete _ ns, l => by
    simp only [inline?, Markdown.inline, inlines?_eq s ns]
    rfl
  | .link e url title? ns, l => by
    simp only [inline?, Markdown.inline, inlines?_eq s ns, push?_eq]
    cases LinkForm.ofSource (s.slice e) with
    | angle => rfl
    | bracket =>
      by_cases h : s.acceptance.admits url = true
      · simp only [if_pos h]
        rfl
      · simp only [if_neg h]
        cases e <;> rfl
    | bare =>
      dsimp only
      split <;> rfl
  | .linkReference e identifier ns, l => by
    simp only [inline?, Markdown.inline, inlines?_eq s ns, push?_eq]
    cases s.resolve? identifier with
    | some d => rfl
    | none => cases e <;> rfl
  | .image _ _ _ _, l => by
    simp only [inline?, Markdown.inline, push?_eq]
    split <;> rfl
  | .imageReference _ identifier _, l => by
    simp only [inline?, Markdown.inline, push?_eq]
    cases s.resolve? identifier <;> rfl
  | .root _ _, l | .paragraph _ _, l | .heading _ _ _, l | .blockquote _ _, l
  | .list _ _ _ _ _, l | .listItem _ _ _, l | .code _ _ _ _, l | .html _ _, l | .math _ _, l
  | .thematicBreak _, l | .table _ _ _, l | .tableRow _ _, l | .tableCell _ _, l
  | .definition _ _ _ _, l | .footnoteDefinition _ _ _, l | .inlineCode _ _, l
  | .inlineMath _ _, l => by simp only [inline?]

theorem inlines?_eq (s : Setting) : ∀ (ns : List Node) (l : Line),
    inlines? s ns l = some (inlines s ns l)
  | [], _ => rfl
  | n :: ns, l => by
    rw [inlines?, inline?_eq s n, Option.bind_some, inlines?_eq s ns]
    rfl

end

/-- **Running text never fails to become its tokens.** -/
theorem inlineTokens?_eq (s : Setting) (ns : List Node) :
    inlineTokens? s ns = some (inlineTokens s ns) := by
  rw [inlineTokens?, inlines?_eq]
  rfl

/-! ## Raised runs -/

/-- The text up to the next caret, with the place of that caret, if it can be raised. -/
def raisable? (after : List Char) : Option (Option (Nat × List Char)) :=
  match find? ['^'] after with
  | none => some none
  | some closed => (takeBytes? closed after).map fun body =>
    if body.isEmpty || body.any isBlank then none else some (closed, body)

/-- The tokens of `rest`, in front of which there is the text `plain`; it takes a step for every
caret that is looked at. -/
def raiseFrom? : (steps : Nat) → (plain rest : List Char) → Option (List Token)
  | 0, _, _ => none
  | steps + 1, plain, rest =>
    match find? ['^'] rest with
    | none => some (plainText (plain ++ rest))
    | some opened => do
      let after ← dropBytes? (opened + 1) rest
      match ← raisable? after with
      | some (closed, body) =>
        let before ← takeBytes? opened rest
        let rest ← dropBytes? (closed + 1) after
        let ts ← raiseFrom? steps [] rest
        return plainText (plain ++ before) ++ raisedTokens body ++ ts
      | none =>
        let before ← takeBytes? (opened + 1) rest
        raiseFrom? steps (plain ++ before) after

def raiseText? (text : String) : Option (List Token) :=
  raiseFrom? (text.toList.length + 1) [] text.toList

def raiseAll? : List Token → Option (List Token)
  | [] => some []
  | t :: ts => do
    let us ← if t.kind = .text ∧ '^' ∈ t.content.toList then raiseText? t.content else some [t]
    let rest ← raiseAll? ts
    return us ++ rest

/-! ### What carets there are -/

theorem cut?_caret (cs : List Char) : cut? ['^'] ('^' :: cs) = some ([], cs) :=
  cut?_hit (by simp) cs

theorem cut?_not_caret {c : Char} (h : c ≠ '^') (cs : List Char) :
    cut? ['^'] (c :: cs)
      = (cut? ['^'] cs).map fun (before, after) => (c :: before, after) := by
  apply cut?_miss
  rw [List.cons_prefix_cons]
  exact fun hstarts => h hstarts.1.symm

theorem not_mem_of_cut?_none {cs : List Char} (h : cut? ['^'] cs = none) : '^' ∉ cs := by
  induction cs with
  | nil => exact List.not_mem_nil
  | cons c cs ih =>
    by_cases hc : c = '^'
    · rw [hc, cut?_caret] at h
      cases h
    · rw [cut?_not_caret hc, Option.map_eq_none_iff] at h
      rw [List.mem_cons, not_or]
      exact ⟨fun hcaret => hc hcaret.symm, ih h⟩

theorem not_mem_of_cut?_some {cs before after : List Char}
    (h : cut? ['^'] cs = some (before, after)) : '^' ∉ before := by
  induction cs generalizing before with
  | nil => cases h
  | cons c cs ih =>
    by_cases hc : c = '^'
    · rw [hc, cut?_caret] at h
      cases h
      exact List.not_mem_nil
    · rw [cut?_not_caret hc] at h
      obtain ⟨⟨rest, _⟩, hcut, heq⟩ := Option.map_eq_some_iff.mp h
      cases heq
      rw [List.mem_cons, not_or]
      exact ⟨fun hcaret => hc hcaret.symm, ih hcut⟩

theorem forall_ne_caret {cs : List Char} (h : '^' ∉ cs) : ∀ c ∈ cs, (c != '^') = true := by
  intro c hc
  rw [bne_iff_ne]
  rintro rfl
  exact h hc

/-- A caret that no other follows raises nothing. -/
theorem raised_open {cs : List Char} (h : '^' ∉ cs) : raised true ('^' :: cs) = none := by
  have hdrop : cs.dropWhile (· != '^') = [] := List.dropWhile_eq_nil_iff.mpr (forall_ne_caret h)
  unfold raised
  simp [hdrop]

/-- What is raised between two carets, if anything is. -/
theorem raised_closed {body : List Char} (h : '^' ∉ body) (cs : List Char) :
    raised true ('^' :: (body ++ '^' :: cs))
      = if body.isEmpty || body.any isBlank then none else some ⟨body, body.length + 1⟩ := by
  have htake : (body ++ '^' :: cs).takeWhile (· != '^') = body := by
    rw [List.takeWhile_append_of_pos (forall_ne_caret h)]
    simp
  have hdrop : (body ++ '^' :: cs).dropWhile (· != '^') = '^' :: cs := by
    rw [List.dropWhile_append_of_pos (forall_ne_caret h)]
    simp
  unfold raised
  simp [htake, hdrop]

/-! ### The loop -/

/-- The tokens of a text from its pieces, where `plain` is put in front of the first. -/
def raisedPieces (plain : List Char) (p : Pieces Char (List Char)) : List Token :=
  plainText (plain ++ p.first) ++ p.rest.flatMap fun (body, after) =>
    raisedTokens body ++ plainText after

theorem raisable?_eq (after : List Char) : raisable? after
    = some ((cut? ['^'] after).bind fun p =>
        if p.1.isEmpty || p.1.any isBlank then none else some (byteSize p.1, p.1)) := by
  rw [raisable?, find?_eq]
  cases hcut : cut? ['^'] after with
  | none => rfl
  | some p =>
    dsimp only [Option.map_some]
    rw [takeBytes?_find? hcut]
    rfl

/-- A text without carets is one piece. -/
theorem raisedPieces_none (plain : List Char) {rest : List Char} (h : '^' ∉ rest) :
    raisedPieces plain (pieces raised rest) = plainText (plain ++ rest) := by
  have hpieces := Variable.steady_raised.pieces_miss (Variable.raised_misses h [])
  rw [List.append_nil] at hpieces
  rw [hpieces]
  simp [raisedPieces, pieces, scan, scanFrom, Pieces.ofScan]

section

variable (plain : List Char) {before body after : List Char} (h : '^' ∉ before)

include h

/-- The text up to a caret and the caret are one piece with what comes next, if nothing is
raised. -/
theorem raisedPieces_miss (hmiss : raised true ('^' :: after) = none) :
    raisedPieces plain (pieces raised (before ++ '^' :: after))
      = raisedPieces (plain ++ (before ++ ['^'])) (pieces raised after) := by
  rw [Variable.steady_raised.pieces_miss (Variable.raised_misses h _),
    Variable.steady_raised.pieces_cons hmiss]
  simp [raisedPieces]

theorem raisedPieces_hit (hb : '^' ∉ body) (hbody : ¬ (body.isEmpty || body.any isBlank) = true) :
    raisedPieces plain (pieces raised (before ++ '^' :: (body ++ '^' :: after)))
      = plainText (plain ++ before) ++ raisedTokens body
        ++ raisedPieces [] (pieces raised after) := by
  have hhit : raised true ('^' :: (body ++ '^' :: after)) = some ⟨body, body.length + 1⟩ := by
    rw [raised_closed hb, if_neg hbody]
  have hrest : (body ++ '^' :: after).drop (body.length + 1) = after := by simp
  rw [Variable.steady_raised.pieces_miss (Variable.raised_misses h _),
    Variable.steady_raised.pieces_hit hhit hrest, List.append_nil]
  simp [raisedPieces]

end

/-- What stands up to a caret that has been found, with the caret. -/
theorem takeBytes?_caret (before after : List Char) :
    takeBytes? (byteSize before + 1) (before ++ '^' :: after) = some (before ++ ['^']) := by
  have hsplit : before ++ '^' :: after = (before ++ ['^']) ++ after := by simp
  rw [hsplit, ← takeBytes?_byteSize (before ++ ['^']) after, byteSize_append]
  rfl

theorem raiseFrom?_eq {steps : Nat} (plain : List Char) {rest : List Char}
    (h : rest.length < steps) :
    raiseFrom? steps plain rest = some (raisedPieces plain (pieces raised rest)) := by
  induction steps generalizing plain rest with
  | zero => omega
  | succ steps ih =>
    rw [raiseFrom?, find?_eq]
    cases hopen : cut? ['^'] rest with
    | none => rw [raisedPieces_none plain (not_mem_of_cut?_none hopen), Option.map_none]
    | some p =>
      obtain ⟨before, after⟩ := p
      have hbefore := not_mem_of_cut?_some hopen
      have htake := takeBytes?_find? hopen
      have hafter : dropBytes? (byteSize before + 1) rest = some after := dropBytes?_find? hopen
      obtain rfl : rest = before ++ '^' :: after := append_of_cut?_eq_some hopen
      have hshort : after.length < steps := by
        rw [List.length_append, List.length_cons] at h
        omega
      -- A caret that raises nothing is read over.
      have hmiss (hnone : raised true ('^' :: after) = none) :
          raiseFrom? steps (plain ++ (before ++ ['^'])) after
            = some (raisedPieces plain (pieces raised (before ++ '^' :: after))) := by
        rw [ih _ hshort, raisedPieces_miss plain hbefore hnone]
      rw [Option.map_some]
      dsimp only
      rw [hafter, Option.bind_eq_bind, Option.bind_some, raisable?_eq, Option.bind_eq_bind,
        Option.bind_some, takeBytes?_caret]
      cases hclose : cut? ['^'] after with
      | none => exact hmiss (raised_open (not_mem_of_cut?_none hclose))
      | some q =>
        obtain ⟨body, next⟩ := q
        have hbody := not_mem_of_cut?_some hclose
        have hnext : dropBytes? (byteSize body + 1) after = some next := dropBytes?_find? hclose
        obtain rfl : after = body ++ '^' :: next := append_of_cut?_eq_some hclose
        rw [Option.bind_some]
        by_cases hraise : (body.isEmpty || body.any isBlank) = true
        · rw [if_pos hraise]
          exact hmiss (by rw [raised_closed hbody, if_pos hraise])
        · have hlt : next.length < steps := by
            rw [List.length_append, List.length_cons] at hshort
            omega
          rw [if_neg hraise, raisedPieces_hit plain hbefore hbody hraise]
          simp only [htake, hnext, ih [] hlt, Option.bind_eq_bind, Option.bind_some]
          rfl

theorem raiseAll?_eq (ts : List Token) : raiseAll? ts = some (raiseAll ts) := by
  induction ts with
  | nil => rfl
  | cons t ts ih =>
    rw [raiseAll?, ih]
    by_cases ht : t.kind = .text ∧ '^' ∈ t.content.toList
    · have hraise : raiseAll (t :: ts) = raiseText t.content ++ raiseAll ts := by
        simp [raiseAll, ht]
      rw [if_pos ht, raiseText?, raiseFrom?_eq [] (Nat.lt_succ_self _), hraise]
      rfl
    · have hraise : raiseAll (t :: ts) = [t] ++ raiseAll ts := by
        simp [raiseAll, ht]
      rw [if_neg ht, hraise]
      rfl

end MarkdownPreview.Checked
