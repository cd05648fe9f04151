import MarkdownPreview.Markdown.Block

/-!
# The passages of a document

The tokens of a document open and close blocks, or stand for something in them: the text of a block,
a code block, a block of HTML, a thematic break, or a definition that is put back as it was written.
The tree tells in document order which of these passages are reached (`Node.passages`). What stands
between the tokens of the blocks is their tokens, in that order (`standing_block`), so what one
wants to know of all texts or of all code blocks of a document is a question about one passage.
-/

set_option autoImplicit false

namespace MarkdownPreview.Markdown

open Text

/-! ## Passages -/

/-- A part of a document with no blocks inside. -/
inductive Passage where
  /-- The text of a block inside `depth` block quotes. -/
  | text (depth : Nat) (nodes : List Node)
  /-- A definition inside `depth` block quotes. -/
  | definition (depth : Nat) (extent? : Option Extent) (url : String)
  | code (extent? : Option Extent) (value : String) (lang? rest? : Option String)
  | html (value : String)
  | thematicBreak (extent? : Option Extent)
  deriving Repr

/-- The tokens of a passage, one, or none for a definition that is accepted. -/
def Passage.tokens (s : Setting) : Passage → List Token
  | .text depth ns => [textToken s depth ns]
  | .definition _ extent? url =>
    if s.acceptance.admits url then []
    else [Token.inline (String.ofList (s.slice extent?)) (addText [] (s.slice extent?)).reverse]
  | .code extent? value lang? rest? => [codeToken s extent? value lang? rest?]
  | .html value => [htmlToken value]
  | .thematicBreak extent? =>
    [{ Token.ofBlock .hr "hr" .selfClosing with markup := String.ofList (trim (s.slice extent?)) }]

def cellPassages (depth : Nat) : List Node → List Passage
  | [] => []
  | .tableCell _ ns :: rest => .text depth ns :: cellPassages depth rest
  | _ :: rest => cellPassages depth rest

def rowPassages (depth : Nat) : List Node → List Passage
  | [] => []
  | .tableRow _ ns :: rest => cellPassages depth ns ++ rowPassages depth rest
  | _ :: rest => rowPassages depth rest

mutual

/-- The passages of a block inside `depth` block quotes, in document order. -/
def Node.passages (depth : Nat) : Node → List Passage
  | .root _ ns => passagesOf depth ns
  | .paragraph _ ns | .heading _ _ ns => [.text depth ns]
  | .blockquote _ ns => passagesOf (depth + 1) ns
  | .list _ _ _ _ ns => itemPassages depth ns
  | .code extent? value lang? rest? => [.code extent? value lang? rest?]
  | .html _ value => [.html value]
  | .thematicBreak extent? => [.thematicBreak extent?]
  | .table _ _ ns => rowPassages depth ns
  | .definition extent? _ url _ => [.definition depth extent? url]
  | _ => []

def passagesOf (depth : Nat) : List Node → List Passage
  | [] => []
  | n :: ns => n.passages depth ++ passagesOf depth ns

def itemPassages (depth : Nat) : List Node → List Passage
  | [] => []
  | .listItem _ _ ns :: rest => passagesOf depth ns ++ itemPassages depth rest
  | n :: rest => n.passages depth ++ itemPassages depth rest

end

/-! ## Tokens of passages -/

/-- Whether tokens of a kind open or close an element. -/
def isBorder : Kind → Bool
  | .opening _ | .closing _ => true
  | _ => false

/-- The tokens of a level that neither open nor close an element. -/
def standing (ts : List Token) : List Token := ts.filter fun t => !isBorder t.kind

/-- Some tokens stand for these passages, in this order. -/
def HasPassages (s : Setting) (ts : List Token) (ps : List Passage) : Prop :=
  standing ts = ps.flatMap (Passage.tokens s)

variable {s : Setting} {ts us : List Token} {t o c : Token} {p : Passage} {ps qs : List Passage}

theorem hasPassages_nil : HasPassages s [] [] := rfl

theorem HasPassages.append (h : HasPassages s ts ps) (h' : HasPassages s us qs) :
    HasPassages s (ts ++ us) (ps ++ qs) := by
  rw [HasPassages, standing] at h h' ⊢
  rw [List.filter_append, List.flatMap_append, h, h']

theorem HasPassages.cons_border (ht : isBorder t.kind = true) (h : HasPassages s ts ps) :
    HasPassages s (t :: ts) ps := by
  rwa [HasPassages, standing, List.filter_cons_of_neg (by simp [ht])]

theorem hasPassages_border (ht : isBorder t.kind = true) : HasPassages s [t] [] :=
  hasPassages_nil.cons_border ht

/-- Two tokens around others add no passage. -/
theorem HasPassages.enclose (ho : isBorder o.kind = true) (hc : isBorder c.kind = true)
    (h : HasPassages s ts ps) : HasPassages s (o :: ts ++ [c]) ps := by
  have hend := h.append (hasPassages_border (s := s) hc)
  rw [List.append_nil] at hend
  exact hend.cons_border ho

/-- A passage that has one token. -/
theorem hasPassages_single (hp : p.tokens s = [t]) (ht : isBorder t.kind = false) :
    HasPassages s [t] [p] := by
  rw [HasPassages, standing, List.filter_cons_of_pos (by simp [ht]), List.flatMap_singleton, hp,
    List.filter_nil]

/-- The text of a block between its two tokens. -/
theorem hasPassages_text (depth : Nat) (ns : List Node) (ho : isBorder o.kind = true)
    (hc : isBorder c.kind = true) :
    HasPassages s [o, textToken s depth ns, c] [.text depth ns] :=
  .enclose ho hc (hasPassages_single rfl rfl)

/-! ## Blocks -/

theorem hasPassages_codeToken (extent? : Option Extent) (value : String)
    (lang? rest? : Option String) :
    HasPassages s [codeToken s extent? value lang? rest?] [.code extent? value lang? rest?] := by
  refine hasPassages_single rfl ?_
  unfold codeToken
  dsimp only
  split <;> rfl

theorem hasPassages_definitionTokens (depth : Nat) (extent? : Option Extent) (url : String) :
    HasPassages s (definitionTokens s extent? url) [.definition depth extent? url] := by
  rw [HasPassages, List.flatMap_singleton, definitionTokens, Passage.tokens]
  split <;> rfl

theorem hasPassages_rowCells (depth : Nat) (columns : List Alignment) (e : Element) (tag : String) :
    ∀ (column : Nat) (ns : List Node),
      HasPassages s (rowCells s depth columns e tag column ns) (cellPassages depth ns)
  | _, [] => hasPassages_nil
  | column, n :: rest => by
    have hrest := hasPassages_rowCells depth columns e tag (column + 1) rest
    cases n with
    | tableCell _ ns =>
      rw [rowCells, cellPassages]
      exact .append (hasPassages_text depth ns rfl rfl) hrest
    | _ => exact hrest

theorem hasPassages_rowTokens (depth : Nat) (columns : List Alignment) (isHead : Bool)
    (ns : List Node) :
    HasPassages s (rowTokens s depth columns isHead ns) (cellPassages depth ns) := by
  unfold rowTokens
  refine .enclose rfl rfl ?_
  split <;> exact hasPassages_rowCells depth columns _ _ 0 ns

theorem hasPassages_tableRows (depth : Nat) (columns : List Alignment) :
    ∀ (row : Nat) (ns : List Node),
      HasPassages s (tableRows s depth columns row ns) (rowPassages depth ns)
  | _, [] => by
    rw [tableRows]
    exact hasPassages_nil
  | row, n :: rest => by
    have hrest := fun row => hasPassages_tableRows depth columns row rest
    cases n with
    | tableRow _ ns =>
      have hrow := fun isHead => hasPassages_rowTokens (s := s) depth columns isHead ns
      rw [rowPassages]
      match row with
      | 0 => exact .append (.enclose (by rfl) (by rfl) (hrow true)) (hrest 1)
      | 1 => exact .append (.cons_border (by rfl) (hrow false)) (hrest 2)
      | row + 2 => exact .append (hrow false) (hrest (row + 3))
    | _ =>
      rw [tableRows]
      · exact hrest (row + 1)
      all_goals exact nofun

theorem hasPassages_tableTokens (depth : Nat) (columns : List Alignment) (ns : List Node) :
    HasPassages s (tableTokens s depth columns ns) (rowPassages depth ns) := by
  have hend : HasPassages s (if ns.length > 1 then [closing .tbody "tbody"] else []) [] := by
    split
    · exact hasPassages_border rfl
    · exact hasPassages_nil
  have hbody := (hasPassages_tableRows (s := s) depth columns 0 ns).append hend
  rw [List.append_nil] at hbody
  exact .enclose rfl rfl hbody

mutual

theorem hasPassages_block (depth : Nat) :
    ∀ n : Node, HasPassages s (block s depth n) (n.passages depth)
  | .root _ ns => by
    rw [block, Node.passages]
    exact hasPassages_blocks depth ns
  | .paragraph _ ns => by
    rw [block, Node.passages]
    exact hasPassages_text depth ns rfl rfl
  | .heading _ level ns => by
    rw [block, Node.passages]
    exact hasPassages_text depth ns rfl rfl
  | .blockquote _ ns => by
    rw [block, Node.passages]
    exact .enclose rfl rfl (hasPassages_blocks (depth + 1) ns)
  | .list _ ordered start? spread ns => by
    rw [block, Node.passages]
    exact .enclose rfl rfl (hasPassages_items depth _ ns)
  | .code extent? value lang? rest? => by
    rw [block, Node.passages]
    exact hasPassages_codeToken extent? value lang? rest?
  | .html _ value => by
    rw [block, Node.passages]
    exact hasPassages_single rfl rfl
  | .thematicBreak extent? => by
    rw [block, Node.passages]
    exact hasPassages_single rfl rfl
  | .table _ columns ns => by
    rw [block, Node.passages]
    exact hasPassages_tableTokens depth columns ns
  | .definition extent? _ url _ => by
    rw [block, Node.passages]
    exact hasPassages_definitionTokens depth extent? url
  | .listItem .. | .math .. | .tableRow .. | .tableCell .. | .footnoteDefinition ..
  | .text .. | .lineBreak .. | .inlineCode .. | .inlineMath .. | .emphasis ..
  | .strong .. | .delete .. | .link .. | .linkReference .. | .image ..
  | .imageReference .. => hasPassages_nil

theorem hasPassages_blocks (depth : Nat) :
    ∀ ns : List Node, HasPassages s (blocks s depth ns) (passagesOf depth ns)
  | [] => hasPassages_nil
  | n :: ns => by
    rw [blocks, passagesOf]
    exact .append (hasPassages_block depth n) (hasPassages_blocks depth ns)

theorem hasPassages_items (depth : Nat) (tight : Bool) :
    ∀ ns : List Node, HasPassages s (items s depth tight ns) (itemPassages depth ns)
  | [] => hasPassages_nil
  | n :: rest => by
    have hrest := hasPassages_items depth tight rest
    cases n with
    | listItem _ _ ns =>
      rw [items, itemPassages]
      exact .append (.enclose rfl rfl (hasPassages_itemBlocks depth tight ns)) hrest
    | _ => exact .append (hasPassages_block depth _) hrest

theorem hasPassages_itemBlocks (depth : Nat) (tight : Bool) :
    ∀ ns : List Node, HasPassages s (itemBlocks s depth tight ns) (passagesOf depth ns)
  | [] => hasPassages_nil
  | n :: rest => by
    have hrest := hasPassages_itemBlocks depth tight rest
    cases n with
    | paragraph _ ns =>
      rw [itemBlocks, passagesOf]
      exact .append (hasPassages_text depth ns rfl rfl) hrest
    | _ => exact .append (hasPassages_block depth _) hrest

end

/-- **The passages of a tree become tokens in document order**: what stands between the tokens of
its blocks is the tokens of its passages, one after the other. -/
theorem standing_block (depth : Nat) (n : Node) :
    standing (block s depth n) = (n.passages depth).flatMap (Passage.tokens s) :=
  hasPassages_block depth n

end MarkdownPreview.Markdown
