import Mathlib.Data.List.Forall2
import MarkdownPreview.Proofs.Lowering.Passages

/-!
# The texts of a document

An `inline` token of a document holds the text of some nodes, or a definition that is put back as it
was written. The tree tells in document order which stretches of the source these come from, and
inside how many quotes (`Node.stretches`). They are the stretches of its passages, so the texts come
from them one by one (`hasTexts_block`), and what holds of a text made from a stretch holds of all
texts of a document.
-/

set_option autoImplicit false

namespace MarkdownPreview.Markdown

/-! ## Stretches of the source -/

/-- A stretch of the source that becomes the text of a block. -/
structure Stretch where
  /-- The number of quotes around the block. -/
  depth : Nat
  /-- Its characters, none if it is not known where it is. -/
  text : List Char
  /-- Whether it is a definition that is put back. -/
  isDefinition : Bool := false
  deriving Repr, DecidableEq

/-- The stretch that nodes of running text span. -/
def Setting.stretch (s : Setting) (depth : Nat) (ns : List Node) : Stretch :=
  { depth, text := (s.spanned? ns).getD [] }

def cellStretches (s : Setting) (depth : Nat) : List Node → List Stretch
  | [] => []
  | .tableCell _ ns :: rest => s.stretch depth ns :: cellStretches s depth rest
  | _ :: rest => cellStretches s depth rest

def rowStretches (s : Setting) (depth : Nat) : List Node → List Stretch
  | [] => []
  | .tableRow _ ns :: rest => cellStretches s depth ns ++ rowStretches s depth rest
  | _ :: rest => rowStretches s depth rest

mutual

/-- The stretches of the source that become texts of blocks, in document order. -/
def Node.stretches (s : Setting) (depth : Nat) : Node → List Stretch
  | .root _ ns => stretchesOf s depth ns
  | .paragraph _ ns | .heading _ _ ns => [s.stretch depth ns]
  | .blockquote _ ns => stretchesOf s (depth + 1) ns
  | .list _ _ _ _ ns => itemStretches s depth ns
  | .table _ _ ns => rowStretches s depth ns
  | .definition extent? _ url _ =>
    if s.acceptance.admits url then []
    else [{ depth, text := s.slice extent?, isDefinition := true }]
  | _ => []

def stretchesOf (s : Setting) (depth : Nat) : List Node → List Stretch
  | [] => []
  | n :: ns => n.stretches s depth ++ stretchesOf s depth ns

def itemStretches (s : Setting) (depth : Nat) : List Node → List Stretch
  | [] => []
  | .listItem _ _ ns :: rest => stretchesOf s depth ns ++ itemStretches s depth rest
  | n :: rest => n.stretches s depth ++ itemStretches s depth rest

end

/-! ## Texts and their stretches -/

/-- The `inline` tokens of a level. -/
def texts (ts : List Token) : List Token := ts.filter fun t => t.kind == .inline

/-- How a text comes from its stretch of the source. -/
inductive IsTextOf (s : Setting) : Token → Stretch → Prop
  | nodes (depth : Nat) (ns : List Node) : IsTextOf s (textToken s depth ns) (s.stretch depth ns)
  | definition (depth : Nat) (text : List Char) :
      IsTextOf s (Token.inline (String.ofList text) (addText [] text).reverse)
        { depth, text, isDefinition := true }

/-- The texts of a level come from these stretches of the source, one by one. -/
def HasTexts (s : Setting) (ts : List Token) (stretches : List Stretch) : Prop :=
  List.Forall₂ (IsTextOf s) (texts ts) stretches

variable {s : Setting} {ts us : List Token} {t : Token} {bs ds : List Stretch} {b : Stretch}

theorem HasTexts.append (h : HasTexts s ts bs) (h' : HasTexts s us ds) :
    HasTexts s (ts ++ us) (bs ++ ds) := by
  rw [HasTexts, texts, List.filter_append]
  exact List.rel_append h h'

theorem hasTexts_nil : HasTexts s [] [] := .nil

theorem hasTexts_other (ht : (t.kind == .inline) = false) : HasTexts s [t] [] := by
  rw [HasTexts, texts, List.filter_cons_of_neg (by simp [ht])]
  exact .nil

theorem hasTexts_text (ht : IsTextOf s t b) : HasTexts s [t] [b] := by
  have hk : t.kind = .inline := by cases ht <;> rfl
  rw [HasTexts, texts, List.filter_cons_of_pos (by simp [hk])]
  exact .cons ht .nil

/-! ## Passages -/

/-- The stretch of a passage that has one. -/
def Passage.stretches (s : Setting) : Passage → List Stretch
  | .text depth ns => [s.stretch depth ns]
  | .definition depth extent? url =>
    if s.acceptance.admits url then []
    else [{ depth, text := s.slice extent?, isDefinition := true }]
  | _ => []

theorem cellStretches_eq (depth : Nat) (ns : List Node) :
    cellStretches s depth ns = (cellPassages depth ns).flatMap (Passage.stretches s) := by
  induction ns with
  | nil => rfl
  | cons n rest ih =>
    cases n with
    | tableCell _ ns =>
      rw [cellStretches, cellPassages, List.flatMap_cons, ← ih]
      rfl
    | _ => exact ih

theorem rowStretches_eq (depth : Nat) (ns : List Node) :
    rowStretches s depth ns = (rowPassages depth ns).flatMap (Passage.stretches s) := by
  induction ns with
  | nil => rfl
  | cons n rest ih =>
    cases n with
    | tableRow _ ns =>
      rw [rowStretches, rowPassages, List.flatMap_append, cellStretches_eq, ih]
    | _ => exact ih

mutual

/-- The stretches of a block are those of its passages. -/
theorem Node.stretches_eq (depth : Nat) :
    ∀ n : Node, n.stretches s depth = (n.passages depth).flatMap (Passage.stretches s)
  | .root _ ns => by
    rw [Node.stretches, Node.passages]
    exact stretchesOf_eq depth ns
  | .blockquote _ ns => by
    rw [Node.stretches, Node.passages]
    exact stretchesOf_eq (depth + 1) ns
  | .list _ _ _ _ ns => by
    rw [Node.stretches, Node.passages]
    exact itemStretches_eq depth ns
  | .table _ _ ns => by
    rw [Node.stretches, Node.passages]
    exact rowStretches_eq depth ns
  | .definition _ _ url _ => by
    rw [Node.stretches, Node.passages, List.flatMap_singleton, Passage.stretches]
  | .paragraph .. | .heading .. | .listItem .. | .code .. | .html .. | .math ..
  | .thematicBreak .. | .tableRow .. | .tableCell .. | .footnoteDefinition .. | .text ..
  | .lineBreak .. | .inlineCode .. | .inlineMath .. | .emphasis .. | .strong .. | .delete ..
  | .link .. | .linkReference .. | .image .. | .imageReference .. => rfl

theorem stretchesOf_eq (depth : Nat) : ∀ ns : List Node,
    stretchesOf s depth ns = (passagesOf depth ns).flatMap (Passage.stretches s)
  | [] => rfl
  | n :: ns => by
    rw [stretchesOf, passagesOf, List.flatMap_append, Node.stretches_eq depth n,
      stretchesOf_eq depth ns]

theorem itemStretches_eq (depth : Nat) : ∀ ns : List Node,
    itemStretches s depth ns = (itemPassages depth ns).flatMap (Passage.stretches s)
  | [] => rfl
  | n :: rest => by
    have hrest := itemStretches_eq depth rest
    cases n with
    | listItem _ _ ns =>
      rw [itemStretches, itemPassages, List.flatMap_append, stretchesOf_eq depth ns, hrest]
    | _ =>
      rw [itemStretches, itemPassages, List.flatMap_append, Node.stretches_eq depth _, hrest]
      all_goals exact nofun

end

theorem hasTexts_passage (p : Passage) : HasTexts s (p.tokens s) (p.stretches s) := by
  cases p with
  | text depth ns => exact hasTexts_text (.nodes depth ns)
  | definition depth extent? url =>
    rw [Passage.tokens, Passage.stretches]
    split
    · exact hasTexts_nil
    · exact hasTexts_text (.definition depth _)
  | code extent? value lang? rest? =>
    refine hasTexts_other ?_
    unfold codeToken
    dsimp only
    split <;> rfl
  | html _ | thematicBreak _ => exact hasTexts_other rfl

theorem texts_standing (ts : List Token) : texts (standing ts) = texts ts := by
  rw [texts, standing, List.filter_filter]
  refine List.filter_congr fun t _ => ?_
  cases t.kind <;> rfl

/-- **The texts of a block come from its stretches**, one by one. -/
theorem hasTexts_block (depth : Nat) (n : Node) :
    HasTexts s (block s depth n) (n.stretches s depth) := by
  have hall (ps : List Passage) : HasTexts s (ps.flatMap (Passage.tokens s))
      (ps.flatMap (Passage.stretches s)) := by
    induction ps with
    | nil => exact hasTexts_nil
    | cons p ps ih =>
      rw [List.flatMap_cons, List.flatMap_cons]
      exact (hasTexts_passage p).append ih
  rw [HasTexts, ← texts_standing, standing_block, Node.stretches_eq]
  exact hall _

end MarkdownPreview.Markdown
