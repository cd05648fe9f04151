import Mathlib.Data.List.Forall2
import MarkdownPreview.Markdown.Node
import MarkdownPreview.Proofs.Veil.Places
import MarkdownPreview.Proofs.Veil.Tokens

/-!
# Trees that differ in their comments

When what a comment hides is changed, a Markdown parser makes the same tree of the text, but that
the text of a node is alike, and that nodes are at other places (`NodeLike`). Nothing else of a node
changes, since a comment is text only to the nodes that hold it.
-/

set_option autoImplicit false

namespace MarkdownPreview.Markdown

open Comment Text

/-- Both nodes have no extent, or ends of theirs correspond. -/
def ExtentLike (place : Nat → Nat → Prop) : Option Extent → Option Extent → Prop :=
  Option.Rel fun e e' => place e.start e'.start ∧ place e.stop e'.stop

/-- The extents of a link, which begins with a character of its own. -/
def LinkExtentLike (place : Nat → Nat → Prop) : Option Extent → Option Extent → Prop :=
  Option.Rel fun e e' =>
    (place e.start e'.start ∧ place (e.start + 1) (e'.start + 1)) ∧ place e.stop e'.stop

mutual

/-- The same node but for the comments in its texts and for its place. The texts of headings are
`calm`. -/
inductive NodeLike (place : Nat → Nat → Prop) (hides : List Char → List Char → Prop)
    (calm : List Node → List Node → Prop) : Node → Node → Prop
  | root {e e' ns ns'} (he : ExtentLike place e e') (h : NodesLike place hides calm ns ns') :
    NodeLike place hides calm (.root e ns) (.root e' ns')
  | paragraph {e e' ns ns'} (he : ExtentLike place e e') (h : NodesLike place hides calm ns ns') :
    NodeLike place hides calm (.paragraph e ns) (.paragraph e' ns')
  | heading {e e' depth ns ns'} (he : ExtentLike place e e') (h : NodesLike place hides calm ns ns')
    (hc : calm ns ns') : NodeLike place hides calm (.heading e depth ns) (.heading e' depth ns')
  | blockquote {e e' ns ns'} (he : ExtentLike place e e') (h : NodesLike place hides calm ns ns') :
    NodeLike place hides calm (.blockquote e ns) (.blockquote e' ns')
  | list {e e' ordered start? spread ns ns'} (he : ExtentLike place e e')
    (h : NodesLike place hides calm ns ns') :
    NodeLike place hides calm (.list e ordered start? spread ns)
      (.list e' ordered start? spread ns')
  | listItem {e e' spread ns ns'} (he : ExtentLike place e e')
    (h : NodesLike place hides calm ns ns') :
    NodeLike place hides calm (.listItem e spread ns) (.listItem e' spread ns')
  | code {e e' value lang? rest?} (he : ExtentLike place e e') :
    NodeLike place hides calm (.code e value lang? rest?) (.code e' value lang? rest?)
  | html {e e' value} (he : ExtentLike place e e') :
    NodeLike place hides calm (.html e value) (.html e' value)
  | math {e e' value} (he : ExtentLike place e e') :
    NodeLike place hides calm (.math e value) (.math e' value)
  | thematicBreak {e e'} (he : ExtentLike place e e') :
    NodeLike place hides calm (.thematicBreak e) (.thematicBreak e')
  | table {e e' columns ns ns'} (he : ExtentLike place e e')
    (h : NodesLike place hides calm ns ns') :
    NodeLike place hides calm (.table e columns ns) (.table e' columns ns')
  | tableRow {e e' ns ns'} (he : ExtentLike place e e') (h : NodesLike place hides calm ns ns') :
    NodeLike place hides calm (.tableRow e ns) (.tableRow e' ns')
  | tableCell {e e' ns ns'} (he : ExtentLike place e e') (h : NodesLike place hides calm ns ns') :
    NodeLike place hides calm (.tableCell e ns) (.tableCell e' ns')
  | definition {e e' identifier url title?} (he : ExtentLike place e e') :
    NodeLike place hides calm (.definition e identifier url title?)
      (.definition e' identifier url title?)
  | footnoteDefinition {e e' identifier ns ns'} (he : ExtentLike place e e')
    (h : NodesLike place hides calm ns ns') :
    NodeLike place hides calm (.footnoteDefinition e identifier ns)
      (.footnoteDefinition e' identifier ns')
  | text {e e' x y} (he : ExtentLike place e e') (h : AlikeText hides x y) :
    NodeLike place hides calm (.text e x) (.text e' y)
  | lineBreak {e e'} (he : ExtentLike place e e') :
    NodeLike place hides calm (.lineBreak e) (.lineBreak e')
  | inlineCode {e e' value} (he : ExtentLike place e e') :
    NodeLike place hides calm (.inlineCode e value) (.inlineCode e' value)
  | inlineMath {e e' value} (he : ExtentLike place e e') :
    NodeLike place hides calm (.inlineMath e value) (.inlineMath e' value)
  | emphasis {e e' ns ns'} (he : ExtentLike place e e') (h : NodesLike place hides calm ns ns') :
    NodeLike place hides calm (.emphasis e ns) (.emphasis e' ns')
  | strong {e e' ns ns'} (he : ExtentLike place e e') (h : NodesLike place hides calm ns ns') :
    NodeLike place hides calm (.strong e ns) (.strong e' ns')
  | delete {e e' ns ns'} (he : ExtentLike place e e') (h : NodesLike place hides calm ns ns') :
    NodeLike place hides calm (.delete e ns) (.delete e' ns')
  | link {e e' url title? ns ns'} (he : LinkExtentLike place e e')
    (h : NodesLike place hides calm ns ns') :
    NodeLike place hides calm (.link e url title? ns) (.link e' url title? ns')
  | linkReference {e e' identifier ns ns'} (he : LinkExtentLike place e e')
    (h : NodesLike place hides calm ns ns') :
    NodeLike place hides calm (.linkReference e identifier ns) (.linkReference e' identifier ns')
  | image {e e' url alt title?} (he : ExtentLike place e e') :
    NodeLike place hides calm (.image e url alt title?) (.image e' url alt title?)
  | imageReference {e e' identifier alt} (he : ExtentLike place e e') :
    NodeLike place hides calm (.imageReference e identifier alt) (.imageReference e' identifier alt)

inductive NodesLike (place : Nat → Nat → Prop) (hides : List Char → List Char → Prop)
    (calm : List Node → List Node → Prop) : List Node → List Node → Prop
  | nil : NodesLike place hides calm [] []
  | cons {n n' ns ns'} (h : NodeLike place hides calm n n')
    (hs : NodesLike place hides calm ns ns') : NodesLike place hides calm (n :: ns) (n' :: ns')

end

variable {place : Nat → Nat → Prop} {hides : List Char → List Char → Prop}
  {calm : List Node → List Node → Prop} {n n' : Node} {ns ns' : List Node}

theorem LinkExtentLike.extent {e e' : Option Extent} (h : LinkExtentLike place e e') :
    ExtentLike place e e' := rel_mono h fun h => ⟨h.1.1, h.2⟩

theorem NodeLike.extent (h : NodeLike place hides calm n n') :
    ExtentLike place n.extent? n'.extent? := by
  cases h with
  | link he => exact he.extent
  | linkReference he => exact he.extent
  | _ => assumption

theorem NodesLike.forall₂ (h : NodesLike place hides calm ns ns') :
    List.Forall₂ (NodeLike place hides calm) ns ns' := by
  induction ns generalizing ns' with
  | nil =>
    cases h
    exact .nil
  | cons n ns ih =>
    cases h with
    | cons h hs => exact .cons h (ih hs)

/-! ## Definitions -/

mutual

theorem definitions_eq : ∀ {n n' : Node}, NodeLike place hides calm n n' →
    n.definitions = n'.definitions
  | _, _, .root _ h => definitionsOf_eq h
  | _, _, .paragraph _ h => definitionsOf_eq h
  | _, _, .heading _ h _ => definitionsOf_eq h
  | _, _, .blockquote _ h => definitionsOf_eq h
  | _, _, .list _ h => definitionsOf_eq h
  | _, _, .listItem _ h => definitionsOf_eq h
  | _, _, .table _ h => definitionsOf_eq h
  | _, _, .tableRow _ h => definitionsOf_eq h
  | _, _, .tableCell _ h => definitionsOf_eq h
  | _, _, .footnoteDefinition _ h => definitionsOf_eq h
  | _, _, .emphasis _ h => definitionsOf_eq h
  | _, _, .strong _ h => definitionsOf_eq h
  | _, _, .delete _ h => definitionsOf_eq h
  | _, _, .link _ h => definitionsOf_eq h
  | _, _, .linkReference _ h => definitionsOf_eq h
  | _, _, .definition _ => rfl
  | _, _, .code _ | _, _, .html _ | _, _, .math _ | _, _, .thematicBreak _ | _, _, .text _ _
  | _, _, .lineBreak _ | _, _, .inlineCode _ | _, _, .inlineMath _ | _, _, .image _
  | _, _, .imageReference _ => rfl

theorem definitionsOf_eq : ∀ {ns ns' : List Node}, NodesLike place hides calm ns ns' →
    definitionsOf ns = definitionsOf ns'
  | _, _, .nil => rfl
  | _, _, .cons h hs => by rw [definitionsOf, definitionsOf, definitions_eq h, definitionsOf_eq hs]

end

end MarkdownPreview.Markdown
