import MarkdownPreview.Proofs.Checked.Variables
import MarkdownPreview.Proofs.Text.Caseless
import MarkdownPreview.Sample.Html

/-!
# Code samples, with every place and every group checked

A line that is a directive is read by a pattern with two groups, its keyword and its label. Both have
taken part in every match, so both can be asked for. The rest of a sample is written at places that
are there: the code is cut off at the end of what is left of it without its trailing blanks, and a
label is put in front of it.
-/

set_option autoImplicit false

namespace MarkdownPreview.Checked

open Text Sample

/-! ## Labels -/

/-- The groups of a match, the whole of it first; a group that has taken no part is `none`. -/
abbrev Groups : Type := List (Option (List Char))

/-- A group that has to be there and to have taken part. -/
def group? (groups : Groups) (i : Nat) : Option (List Char) := groups[i]?.join

/-- Matches a line with a directive: the groups are its keyword and its label. -/
def directive? (line : List Char) : Option Groups :=
  match dropCaseless? "[label ".toList line, dropCaseless? "[secondary_label ".toList line with
  | some rest, _ => (beforeFinal? ']' rest).map fun label =>
      [some line, some ((line.drop 1).take 5), some label.toList]
  | none, some rest => (beforeFinal? ']' rest).map fun label =>
      [some line, some ((line.drop 1).take 15), some label.toList]
  | none, none => none

/-- Whether two texts are the same but for the case of letters of ASCII. -/
def sameLetters (us vs : List Char) : Bool := us.map Char.toLower == vs.map Char.toLower

/-- The labels after a match; a label that is known stays, and then nothing is asked of the match. -/
def addLabel? (labels : Labels) (groups : Groups) : Option Labels := do
  let keyword ← group? groups 1
  if sameLetters keyword "label".toList then
    if labels.primary?.isNone then
      let label ← group? groups 2
      return { labels with primary? := some (String.ofList label) }
    else return labels
  else if labels.secondary?.isNone then
    let label ← group? groups 2
    return { labels with secondary? := some (String.ofList label) }
  else return labels

def extract? (labels : Labels) : List (List Char) → Option (Labels × List (List Char))
  | [] => some (labels, [])
  | line :: rest =>
    match if labels.isFull then none else directive? line with
    | some groups => do
      let labels ← addLabel? labels groups
      extract? labels rest
    | none => (extract? labels rest).map fun (all, kept) => (all, line :: kept)

/-- The start of a text that is a keyword but for its case. -/
theorem map_foldCase_of_dropCaseless? {word cs rest : List Char}
    (h : dropCaseless? word cs = some rest) : (cs.take word.length).map foldCase = word := by
  obtain ⟨start, rfl, rfl⟩ := dropCaseless?_eq_some_iff.mp h
  rw [List.length_map, List.take_left]

/-- Only `s` and `k` are matched by letters outside ASCII. -/
theorem toLower_of_foldCase {c w : Char} (hs : w ≠ 's') (hk : w ≠ 'k') (h : foldCase c = w) :
    c.toLower = w := by
  unfold foldCase at h
  split at h
  · exact absurd h.symm hs
  · split at h
    · exact absurd h.symm hk
    · exact h

theorem sameLetters_label {line rest : List Char}
    (h : dropCaseless? "[label ".toList line = some rest) :
    sameLetters ((line.drop 1).take 5) "label".toList = true := by
  have hfold : ((line.drop 1).take 5).map foldCase = "label".toList := by
    have hstart := congrArg (fun cs => (cs.drop 1).take 5) (map_foldCase_of_dropCaseless? h)
    simpa [← List.map_drop, ← List.map_take, List.drop_take, List.take_take] using hstart
  have hsame (c : Char) (hc : c ∈ (line.drop 1).take 5) : c.toLower = foldCase c := by
    have hletter : foldCase c ∈ "label".toList := hfold ▸ List.mem_map_of_mem hc
    refine toLower_of_foldCase (fun hs => ?_) (fun hk => ?_) rfl
    · rw [hs] at hletter
      revert hletter
      decide
    · rw [hk] at hletter
      revert hletter
      decide
  rw [sameLetters, List.map_congr_left hsame, hfold]
  decide

theorem not_sameLetters_secondary {line rest : List Char}
    (h : dropCaseless? "[secondary_label ".toList line = some rest) :
    sameLetters ((line.drop 1).take 15) "label".toList = false := by
  -- The keyword is too long.
  have hlength := congrArg List.length (map_foldCase_of_dropCaseless? h)
  simp at hlength
  rw [sameLetters, beq_eq_false_iff_ne]
  intro hsame
  have hfive := congrArg List.length hsame
  simp at hfive
  omega

section

variable (labels : Labels) (line : List Char) {keyword : List Char} (label : String)

theorem addLabel?_primary (h : sameLetters keyword "label".toList = true) :
    addLabel? labels [some line, some keyword, some label.toList]
      = some (labels.add (.primary label)) := by
  have hkeyword : group? [some line, some keyword, some label.toList] 1 = some keyword := rfl
  have hlabel : group? [some line, some keyword, some label.toList] 2 = some label.toList := rfl
  rw [addLabel?, hkeyword, hlabel, Labels.add]
  obtain ⟨primary?, secondary?⟩ := labels
  simp only [Option.bind_eq_bind, Option.bind_some, h, if_true]
  cases primary? <;> simp

theorem addLabel?_secondary (h : sameLetters keyword "label".toList = false) :
    addLabel? labels [some line, some keyword, some label.toList]
      = some (labels.add (.secondary label)) := by
  have hkeyword : group? [some line, some keyword, some label.toList] 1 = some keyword := rfl
  have hlabel : group? [some line, some keyword, some label.toList] 2 = some label.toList := rfl
  rw [addLabel?, hkeyword, hlabel, Labels.add]
  obtain ⟨primary?, secondary?⟩ := labels
  simp only [Option.bind_eq_bind, Option.bind_some, h]
  cases secondary? <;> simp

end

/-- **Both groups of a directive can be asked for**, and they say what the directive is. -/
theorem addLabel?_eq (labels : Labels) (line : List Char) :
    (directive? line).map (addLabel? labels)
      = (Directive.ofLine? line).map fun d => some (labels.add d) := by
  unfold directive? Directive.ofLine?
  cases hprimary : dropCaseless? "[label ".toList line with
  | some rest =>
    dsimp only
    rw [Option.map_map, Option.map_map]
    exact Option.map_congr fun label _ =>
      addLabel?_primary labels line label (sameLetters_label hprimary)
  | none =>
    cases hsecondary : dropCaseless? "[secondary_label ".toList line with
    | some rest =>
      dsimp only
      rw [Option.map_map, Option.map_map]
      exact Option.map_congr fun label _ =>
        addLabel?_secondary labels line label (not_sameLetters_secondary hsecondary)
    | none => rfl

theorem extract?_eq (labels : Labels) (lines : List (List Char)) :
    extract? labels lines = some (labels.extract lines) := by
  induction lines generalizing labels with
  | nil => rfl
  | cons line rest ih =>
    rw [extract?, Labels.extract]
    by_cases hfull : labels.isFull = true
    · rw [if_pos hfull, if_pos hfull]
      simp only [ih, Option.map_some]
    · rw [if_neg hfull, if_neg hfull]
      have hadd := addLabel?_eq labels line
      cases hgroups : directive? line with
      | none =>
        rw [hgroups, Option.map_none, eq_comm, Option.map_eq_none_iff] at hadd
        simp only [hadd, ih, Option.map_some]
      | some groups =>
        rw [hgroups, Option.map_some, eq_comm, Option.map_eq_some_iff] at hadd
        obtain ⟨d, hd, hadd⟩ := hadd
        simp only [hd, ← hadd, Option.bind_eq_bind, Option.bind_some, ih]

/-! ## The text of a sample -/

def codeHtml? (cs : List Char) : Option String :=
  highlight? Html.escapeCode Html.escapeCode (String.ofList cs)

def commandLines? (prompt : String) : (isFirst : Bool) → List (List Char) → Option (List String)
  | _, [] => some []
  | false, [[]] => some [""]
  | isFirst, line :: rest => do
    let code ← codeHtml? line
    let items ← commandLines? prompt false rest
    return (itemOpening prompt isFirst ++ code) :: items

def body? (command? : Option Command) (kept : List (List Char)) : Option String :=
  match command? with
  | some command => (commandLines? command.prompt true kept).map (String.intercalate "\n")
  | none => codeHtml? (joinLines kept)

/-- Puts the second label in front of the code, if there is one. -/
def withLabel? (label? : Option String) (code : List Char) : Option (List Char) :=
  if label?.isSome then insertAt? 0 (labelHtml "secondary-code-label" label?).toList code
  else some code

def render? (content info : String) (finalBreak : Bool) : Option String := do
  let (labels, kept) ← extract? {} (lines (normalizeBreaks content.toList))
  let language := String.ofList (firstWord info.toList)
  let command? := Command.ofLanguage? language
  let body ← body? command? kept
  let code ← truncate? (byteSize (trimEnd body.toList)) body.toList
  let labelled ← withLabel? labels.secondary? code
  return labelHtml "code-label" labels.primary?
    ++ "<pre class=\"code-pre "
    ++ (match command? with
      | some command => command.className ++ " prefixed"
      | none => "")
    ++ "\">"
    ++ codeOpening (if command?.isSome then "bash" else language)
    ++ String.ofList labelled ++ "\n"
    ++ (if command?.isSome then "</li></ul>" else "")
    ++ "</code></pre>"
    ++ (if finalBreak then "\n" else "")

theorem codeHtml?_eq (cs : List Char) : codeHtml? cs = some (codeHtml cs) := highlight?_eq _ _ _

theorem commandLines?_eq (prompt : String) (isFirst : Bool) (lines : List (List Char)) :
    commandLines? prompt isFirst lines = some (commandLines prompt isFirst lines) := by
  induction isFirst, lines using commandLines.induct with
  | case1 isFirst => simp [commandLines?, commandLines]
  | case2 => simp [commandLines?, commandLines]
  | case3 isFirst line rest hlast ih =>
    rw [commandLines?, commandLines, codeHtml?_eq, ih]
    · rfl
    · exact hlast
    · exact hlast

theorem body?_eq (command? : Option Command) (kept : List (List Char)) :
    body? command? kept = some (body command? kept) := by
  cases command? with
  | none => exact codeHtml?_eq _
  | some command => rw [body?, commandLines?_eq]; rfl

theorem withLabel?_eq (label? : Option String) (code : List Char) :
    withLabel? label? code
      = some ((labelHtml "secondary-code-label" label?).toList ++ code) := by
  cases label? with
  | none => rfl
  | some label => rw [withLabel?, Option.isSome_some, if_pos rfl, insertAt?_zero]

/-- **No sample fails to be written.** -/
theorem render?_eq (content info : String) (finalBreak : Bool) :
    render? content info finalBreak = some (render content info finalBreak) := by
  unfold render? render
  rw [extract?_eq]
  simp only [body?_eq, trimEnd, truncate?_dropEndWhile, withLabel?_eq, Option.bind_eq_bind,
    Option.bind_some, String.ofList_append, String.ofList_toList, ← String.append_assoc]
  rfl

/-! ## Samples in a document -/

def renderVisit? (spaced : Bool) : Visit? := fun c =>
  match c.current? with
  | some t =>
    if t.kind = .fence ∧ t.tag = "code" then
      let nextIsFence := (c.peek 1).any fun next => next.kind == .fence
      (render? t.content t.info (!(spaced && nextIsFence))).map fun html =>
        (c.replace (Token.html html)).2
    else some c
  | none => some c

/-- What a visit leaves in the place of a token. -/
def rendered (spaced : Bool) (t : Token) (after : List Token) : Token :=
  if t.kind = .fence ∧ t.tag = "code" then
    let nextIsFence := after.head?.any fun next => next.kind == .fence
    Token.html (render t.content t.info (!(spaced && nextIsFence)))
  else t

theorem renderVisit?_eq (spaced : Bool) (before : List Token) (t : Token) (after : List Token) :
    renderVisit? spaced (Cursor.amid before t after)
      = some (Cursor.amid before (rendered spaced t after) after) := by
  simp only [renderVisit?, Cursor.current?_amid, peek_amid, render?_eq, Option.map_some,
    Cursor.replace, Cursor.edit_amid, rendered]
  split <;> rfl

theorem renderLevel_eq (spaced : Bool) (ts : List Token) :
    renderLevel spaced ts = editEach (rendered spaced) ts := by
  induction ts with
  | nil => rfl
  | cons t ts ih => rw [renderLevel, editEach, ih]; rfl

theorem walk?_renderAll (spaced : Bool) (ts : List Token) :
    ∃ n, ∀ steps, n ≤ steps →
      walk? (renderVisit? spaced) steps ts = some (renderAll spaced ts) := by
  have hlevel : (fun _ => renderLevel spaced)
      = fun (_ : Option Kind) => editEach (rendered spaced) := by
    funext _ level
    exact renderLevel_eq spaced level
  rw [renderAll, hlevel]
  refine walk?_of_edit (rendered spaced) (renderVisit?_eq spaced) (fun t after => ?_) (fun f t after => ?_) ts
  · unfold rendered
    split
    · exact Nat.zero_le _
    · exact le_rfl
  · have hhead : (after.map (Token.under f)).head?.any (fun next => next.kind == .fence)
        = after.head?.any fun next => next.kind == .fence := by
      cases after <;> rfl
    simp only [rendered, hhead]
    unfold Token.under
    dsimp only
    split <;> rfl

end MarkdownPreview.Checked
