import MarkdownPreview.Proofs.Markup.Escape
import MarkdownPreview.Proofs.Markup.Tags
import MarkdownPreview.Proofs.Variables.Lines

/-!
# What is seen of a code sample

The functions here follow those that write a code sample and say what is seen of each part: the text of
labels and code, and the tags around them. The lines of commands are seen with their items, as they are
written: an item is opened by its line and closed by the next. What is written is what is seen
(`reads_render`), whatever labels, variables and prompts there are; a prompt is escaped like prose, so it
matters that this leaves no quotes.
-/

set_option autoImplicit false

namespace MarkdownPreview.Sample

open Html Text Variable

/-! ## What is meant to be seen -/

/-- Text between two tags. -/
def elementSeen (name : String) (cs : List Char) : Seen :=
  .inr (.opening name) :: (cs.map .inl ++ [.inr (.closing name)])

/-- Code, with its variables as highlights. -/
def codeSeen (cs : List Char) : Seen :=
  (scan markedName cs).flatMap
    (Sum.elim (fun c => (codeChar c).map .inl) fun name => elementSeen "span" (name.flatMap codeChar))

/-- What comes before the text of a line of commands. -/
def itemSeen (isFirst : Bool) : Seen :=
  [.inr (if isFirst then .opening "ul" else .closing "li"), .inr (.opening "li")]

/-- The lines of a series of commands. -/
def linesSeen : (isFirst : Bool) → List (List Char) → List Seen
  | _, [] => []
  | false, [[]] => [[]]
  | isFirst, line :: rest => (itemSeen isFirst ++ codeSeen line) :: linesSeen false rest

def bodySeen (isCommand : Bool) (kept : List (List Char)) : Seen :=
  if isCommand then [.inl '\n'].intercalate (linesSeen true kept) else codeSeen (joinLines kept)

def labelSeen : Option String → Seen
  | none => []
  | some label => elementSeen "div" (Html.escape label).toList

/-- What a command adds to the end of its last line. -/
def endSeen (isCommand : Bool) : Seen :=
  if isCommand then [.inr (.closing "li"), .inr (.closing "ul")] else []

/-- What is seen inside the code element. -/
def insideSeen (isCommand : Bool) (secondary? : Option String) (kept : List (List Char)) : Seen :=
  labelSeen secondary? ++ (bodySeen isCommand kept).trimEnd ++ .inl '\n' :: endSeen isCommand

/-- The command that the first word of what follows a fence's marks stands for. -/
def command? (info : String) : Option Command :=
  Command.ofLanguage? (String.ofList (firstWord info.toList))

/-- The labels of a sample, and the lines that stay. -/
def extracted (content : String) : Labels × List (List Char) :=
  Labels.extract {} (lines (normalizeBreaks content.toList))

/-- What is seen of a sample. -/
def sampleSeen (content info : String) (finalBreak : Bool) : Seen :=
  labelSeen (extracted content).1.primary? ++ [.inr (.opening "pre"), .inr (.opening "code")]
    ++ insideSeen (command? info).isSome (extracted content).1.secondary? (extracted content).2
    ++ [.inr (.closing "code"), .inr (.closing "pre")]
    ++ (if finalBreak then [.inl '\n'] else [])

@[simp] theorem tags_elementSeen (name : String) (cs : List Char) :
    (elementSeen name cs).tags = [.opening name, .closing name] := by
  simp [elementSeen]

@[simp] theorem text_itemSeen (isFirst : Bool) : (itemSeen isFirst).text = [] := rfl

@[simp] theorem text_endSeen (isCommand : Bool) : (endSeen isCommand).text = [] := by
  cases isCommand <;> rfl

/-! ## What is written is what is seen -/

theorem reads_element {opening closing text : String} (name : String)
    (ho : Reads opening [.inr (.opening name)]) (hc : Reads closing [.inr (.closing name)])
    (ht : '<' ∉ text.toList) : Reads (opening ++ text ++ closing) (elementSeen name text.toList) :=
  (ho.append (.text ht)).append hc

/-- A tag with a class and no other attribute. -/
theorem reads_classOpening {html : String} (name className : String) (hn : name ∈ tagNames)
    (hb : '<' ∉ className.toList) (hq : '"' ∉ className.toList)
    (h : html.toList = (Piece.opening name [⟨"class", '"', className.toList⟩] false).chars) :
    Reads html [.inr (openingBracket name)] :=
  .opening name _ hn (List.forall_mem_singleton.mpr (Attribute.sound (by decide) hb hq)) h

theorem reads_span {html : String} (h : '<' ∉ html.toList) :
    Reads (span html) (elementSeen "span" html.toList) := by
  have hopen : Reads "<span class=\"highlight\">" [.inr (.opening "span")] :=
    reads_classOpening "span" "highlight" (by decide) (by decide) (by decide) rfl
  have hclose : Reads "</span>" [.inr (.closing "span")] := .closing "span" (by decide) rfl
  exact reads_element "span" hopen hclose h

theorem reads_codeHtml (cs : List Char) : Reads (codeHtml cs) (codeSeen cs) := by
  have hpieces : Reads (String.ofList ((scan markedName cs).flatMap (Sum.elim codeChar nameChars)))
      (codeSeen cs) := by
    refine .flatMap fun item _ => ?_
    cases item with
    | inl c =>
      have hc := bracket_not_mem_codeChar c
      simpa using Reads.text (by simpa using hc : '<' ∉ (String.ofList (codeChar c)).toList)
    | inr name =>
      have hname := reads_span (bracket_not_mem_escapeCode (String.ofList name))
      simpa [nameChars, escapeCode] using hname
  rwa [← toList_codeHtml, String.ofList_toList] at hpieces

theorem Command.not_mem_prompt (command : Command) :
    '<' ∉ command.prompt.toList ∧ '"' ∉ command.prompt.toList := by
  cases command with
  | user => decide
  | superUser => decide
  | custom p =>
    rw [Command.prompt]
    split
    · rename_i hp
      rw [hp]
      decide
    · exact Prose.not_mem_escape p

theorem reads_itemOpening {prompt : String} (hb : '<' ∉ prompt.toList) (hq : '"' ∉ prompt.toList)
    (isFirst : Bool) : Reads (itemOpening prompt isFirst) (itemSeen isFirst) := by
  have hlist : Reads "<ul class=\"prefixed\">" [.inr (.opening "ul")] :=
    reads_classOpening "ul" "prefixed" (by decide) (by decide) (by decide) rfl
  have hclose : Reads "</li>" [.inr (.closing "li")] := .closing "li" (by decide) rfl
  have hitem : Reads ("<li class=\"line\" data-prefix=\"" ++ prompt ++ "\">")
      [.inr (.opening "li")] := by
    refine .opening "li" [⟨"class", '"', "line".toList⟩, ⟨"data-prefix", '"', prompt.toList⟩]
      (by decide) ?_ (by simp [Piece.chars, Attribute.chars])
    exact List.forall_mem_cons.mpr ⟨Attribute.sound (by decide) (by decide) (by decide),
      List.forall_mem_singleton.mpr (Attribute.sound (by decide) hb hq)⟩
  unfold itemOpening
  rw [String.append_assoc, String.append_assoc]
  rw [String.append_assoc] at hitem
  cases isFirst with
  | true => exact hlist.append hitem
  | false => exact hclose.append hitem

theorem reads_commandLines {prompt : String} (hb : '<' ∉ prompt.toList) (hq : '"' ∉ prompt.toList)
    (isFirst : Bool) (ls : List (List Char)) :
    List.Forall₂ Reads (commandLines prompt isFirst ls) (linesSeen isFirst ls) := by
  fun_induction commandLines prompt isFirst ls with
  | case1 isFirst => cases isFirst <;> exact .nil
  | case2 => exact .cons .empty .nil
  | case3 isFirst line rest hlast ih =>
    rw [linesSeen]
    · exact .cons ((reads_itemOpening hb hq isFirst).append (reads_codeHtml line)) ih
    · exact hlast

theorem reads_body (command? : Option Command) (kept : List (List Char)) :
    Reads (body command? kept) (bodySeen command?.isSome kept) := by
  cases command? with
  | none => exact reads_codeHtml _
  | some command =>
    have hbreak : Reads "\n" [.inl '\n'] := .text (by decide)
    exact hbreak.intercalate
      (reads_commandLines command.not_mem_prompt.1 command.not_mem_prompt.2 true kept)

theorem reads_labelHtml (className : String) (hb : '<' ∉ className.toList)
    (hq : '"' ∉ className.toList) (label? : Option String) :
    Reads (labelHtml className label?) (labelSeen label?) := by
  cases label? with
  | none => exact .empty
  | some label =>
    have hopen : Reads
        ("<div class=\"" ++ className ++ " \" title=\"" ++ Html.escape label ++ "\">")
        [.inr (.opening "div")] := by
      refine .opening "div" [⟨"class", '"', (className ++ " ").toList⟩,
        ⟨"title", '"', (Html.escape label).toList⟩] (by decide) ?_
        (by simp [Piece.chars, Attribute.chars])
      exact List.forall_mem_cons.mpr
        ⟨Attribute.sound (by decide) (by simpa using hb) (by simpa using hq),
          List.forall_mem_singleton.mpr (Attribute.sound (by decide) (bracket_not_mem_escape label)
            (quote_not_mem_escape label))⟩
    have hclose : Reads "</div>" [.inr (.closing "div")] := .closing "div" (by decide) rfl
    exact reads_element "div" hopen hclose (bracket_not_mem_escape label)

theorem reads_codeOpening (language : String) :
    Reads (codeOpening language) [.inr (.opening "code")] := by
  unfold codeOpening
  split
  · exact .opening "code" [] (by decide) (List.forall_mem_nil _) rfl
  · refine reads_classOpening "code" ("code-highlight language-" ++ Html.escape language) (by decide)
      ?_ ?_ (by simp [Piece.chars, Attribute.chars])
    · simpa using bracket_not_mem_escape language
    · simpa using quote_not_mem_escape language

theorem reads_preOpening (command? : Option Command) :
    Reads ("<pre class=\"code-pre " ++ (match command? with
      | some command => command.className ++ " prefixed"
      | none => "") ++ "\">") [.inr (.opening "pre")] := by
  have hclass (className : String) (hb : '<' ∉ className.toList) (hq : '"' ∉ className.toList) :
      Reads ("<pre class=\"code-pre " ++ className ++ "\">") [.inr (.opening "pre")] :=
    reads_classOpening "pre" ("code-pre " ++ className) (by decide) (by simpa using hb)
      (by simpa using hq) (by simp [Piece.chars, Attribute.chars])
  cases command? with
  | none => exact hclass "" (by decide) (by decide)
  | some command =>
    refine hclass (command.className ++ " prefixed") ?_ ?_ <;>
      cases command <;> simp [Command.className]

theorem reads_listEnd (isCommand : Bool) :
    Reads (if isCommand then "</li></ul>" else "") (endSeen isCommand) := by
  have hitem : Reads "</li>" [.inr (.closing "li")] := .closing "li" (by decide) rfl
  have hlist : Reads "</ul>" [.inr (.closing "ul")] := .closing "ul" (by decide) rfl
  cases isCommand with
  | false => exact .empty
  | true => exact hitem.append hlist

/-- **What is written is what is seen.** -/
theorem reads_render (content info : String) (finalBreak : Bool) :
    Reads (render content info finalBreak) (sampleSeen content info finalBreak) := by
  have hcode : Reads "</code>" [.inr (.closing "code")] := .closing "code" (by decide) rfl
  have hpre : Reads "</pre>" [.inr (.closing "pre")] := .closing "pre" (by decide) rfl
  have hbreak : Reads "\n" [.inl '\n'] := .text (by decide)
  have hfinal : Reads (if finalBreak then "\n" else "") (if finalBreak then [.inl '\n'] else []) := by
    cases finalBreak with
    | false => exact .empty
    | true => exact hbreak
  -- Where the label ends and the tag starts is lost in the way the parts are put together.
  have hhead (label? : Option String) (command? : Option Command) :
      Reads (labelHtml "code-label" label? ++ "<pre class=\"code-pre " ++ (match command? with
        | some command => command.className ++ " prefixed"
        | none => "") ++ "\">") (labelSeen label? ++ [.inr (.opening "pre")]) := by
    have h := (reads_labelHtml "code-label" (by decide) (by decide) label?).append
      (reads_preOpening command?)
    rwa [← String.append_assoc, ← String.append_assoc] at h
  have hlabel := reads_labelHtml "secondary-code-label" (by decide) (by decide)
  have hparts := (((((((hhead (extracted content).1.primary? (command? info)).append
    (reads_codeOpening (if (command? info).isSome then "bash"
      else String.ofList (firstWord info.toList)))).append
    (hlabel (extracted content).1.secondary?)).append
    (reads_body (command? info) (extracted content).2).trimEnd).append hbreak).append
    (reads_listEnd (command? info).isSome)).append (hcode.append hpre)).append hfinal
  refine Eq.mp (congrArg (Reads (render content info finalBreak)) ?_) hparts
  simp [sampleSeen, insideSeen]

/-! ## The tags inside the code element -/

/-- The tags of elements of some names. -/
def tagsOf (names : List String) : List (Bracket String) :=
  names.flatMap fun name => [.opening name, .closing name]

theorem tags_codeSeen (cs : List Char) : (codeSeen cs).tags
    = (scan markedName cs).flatMap (Sum.elim (fun _ => []) fun _ => tagsOf ["span"]) := by
  rw [codeSeen, Seen.tags, List.filterMap_flatMap]
  congr 1
  funext item
  cases item with
  | inl c => exact Seen.tags_map_inl (codeChar c)
  | inr name => exact tags_elementSeen "span" (name.flatMap codeChar)

theorem balanced_codeSeen (cs : List Char) : Balanced (codeSeen cs).tags := by
  rw [tags_codeSeen]
  refine .flatMap fun item _ => ?_
  cases item with
  | inl c => exact .nil
  | inr name => exact Balanced.nil.enclose "span"

theorem tags_codeSeen_subset (cs : List Char) : (codeSeen cs).tags ⊆ tagsOf ["span"] := by
  intro tag htag
  rw [tags_codeSeen] at htag
  obtain ⟨item, -, hitem⟩ := List.mem_flatMap.mp htag
  cases item with
  | inl c => cases hitem
  | inr name => exact hitem

theorem balanced_labelSeen (label? : Option String) : Balanced (labelSeen label?).tags := by
  cases label? with
  | none => exact .nil
  | some label =>
    rw [labelSeen, tags_elementSeen]
    exact Balanced.nil.enclose "div"

theorem tags_labelSeen_subset (label? : Option String) :
    (labelSeen label?).tags ⊆ tagsOf ["div"] := by
  cases label? with
  | none => exact List.nil_subset _
  | some label => simp [labelSeen, tagsOf]

/-- A line of commands and the lines below it: only an empty last line has no item. -/
theorem linesSeen_cons (isFirst : Bool) (line : List Char) (rest : List (List Char)) :
    linesSeen isFirst (line :: rest)
      = (if isFirst = false ∧ line = [] ∧ rest = [] then []
          else itemSeen isFirst ++ codeSeen line) :: linesSeen false rest := by
  split
  · rename_i h
    obtain ⟨rfl, rfl, rfl⟩ := h
    rfl
  · rename_i h
    rw [linesSeen]
    rintro rfl rfl rfl
    exact h ⟨rfl, rfl, rfl⟩

/-- Every line closes the item of the line before it and opens its own. -/
theorem waitingAfter_linesSeen (ls : List (List Char)) :
    waitingAfter ["li"] ((linesSeen false ls).flatMap Seen.tags) = some ["li"] := by
  -- On the lines: before and after each of them, one item is open.
  induction ls with
  | nil => rfl
  | cons line rest ih =>
    rw [linesSeen_cons, List.flatMap_cons, waitingAfter_append]
    have hline : waitingAfter ["li"] (Seen.tags (if false = false ∧ line = [] ∧ rest = [] then []
        else itemSeen false ++ codeSeen line)) = some ["li"] := by
      split
      · rfl
      · rw [Seen.tags_append, waitingAfter_append]
        exact (balanced_codeSeen line).waitingAfter ["li"]
    rw [hline]
    exact ih

theorem tags_linesSeen_subset (ls : List (List Char)) :
    (linesSeen false ls).flatMap Seen.tags ⊆ tagsOf ["li", "span"] := by
  induction ls with
  | nil => exact List.nil_subset _
  | cons line rest ih =>
    rw [linesSeen_cons, List.flatMap_cons]
    refine List.append_subset.mpr ⟨?_, ih⟩
    split
    · exact List.nil_subset _
    · rw [Seen.tags_append]
      refine List.append_subset.mpr ⟨by decide, ?_⟩
      exact List.Subset.trans (tags_codeSeen_subset line) (by decide)

/-- The first line opens the list, and its item. -/
theorem tags_bodySeen_commands (line : List Char) (rest : List (List Char)) :
    (bodySeen true (line :: rest)).tags = .opening "ul" :: .opening "li"
      :: ((codeSeen line).tags ++ (linesSeen false rest).flatMap Seen.tags) := by
  rw [bodySeen, if_pos rfl, Seen.tags_intercalate, linesSeen_cons, List.flatMap_cons,
    if_neg (by simp), Seen.tags_append]
  rfl

theorem tags_bodySeen_code (kept : List (List Char)) :
    (bodySeen false kept).tags = (codeSeen (joinLines kept)).tags := rfl

theorem tags_insideSeen (isCommand : Bool) (secondary? : Option String) (kept : List (List Char)) :
    (insideSeen isCommand secondary? kept).tags
      = (labelSeen secondary?).tags ++ (bodySeen isCommand kept).tags ++ (endSeen isCommand).tags := by
  rw [insideSeen, Seen.tags_append, Seen.tags_append, Seen.tags_trimEnd, Seen.tags_char]

theorem tags_insideSeen_subset (isCommand : Bool) (secondary? : Option String)
    (kept : List (List Char)) :
    (insideSeen isCommand secondary? kept).tags ⊆ tagsOf ["div", "ul", "li", "span"] := by
  have hlabel : (labelSeen secondary?).tags ⊆ tagsOf ["div", "ul", "li", "span"] :=
    List.Subset.trans (tags_labelSeen_subset secondary?) (by decide)
  have hcode (cs : List Char) : (codeSeen cs).tags ⊆ tagsOf ["div", "ul", "li", "span"] :=
    List.Subset.trans (tags_codeSeen_subset cs) (by decide)
  rw [tags_insideSeen]
  refine List.append_subset.mpr ⟨List.append_subset.mpr ⟨hlabel, ?_⟩, ?_⟩
  · match isCommand, kept with
    | false, kept => exact hcode (joinLines kept)
    | true, [] => exact List.nil_subset _
    | true, line :: rest =>
      rw [tags_bodySeen_commands]
      refine List.cons_subset.mpr ⟨by decide, List.cons_subset.mpr ⟨by decide, ?_⟩⟩
      exact List.append_subset.mpr ⟨hcode line,
        List.Subset.trans (tags_linesSeen_subset rest) (by decide)⟩
  · cases isCommand <;> decide

end MarkdownPreview.Sample
