import MarkdownPreview.Markdown.Node

/-!
# What holds of every node of a Markdown tree

Some claims about a document are made under a condition on the nodes of its tree: that none of them
is HTML (`Node.isMarkdown`), or that tables hold nothing but rows (`Node.hasOnlyRows`). `Node.all`
asks a condition of a node and of all nodes in it.

What else a condition lets into a tree is told by `AllowsHtml` and `AllowsStray`.
-/

set_option autoImplicit false

namespace MarkdownPreview.Markdown

mutual

/-- Whether a node and all nodes in it satisfy `p`. -/
def Node.all (p : Node → Bool) : Node → Bool
  | n@(.root _ ns) | n@(.paragraph _ ns) | n@(.heading _ _ ns) | n@(.blockquote _ ns)
  | n@(.list _ _ _ _ ns) | n@(.listItem _ _ ns) | n@(.table _ _ ns) | n@(.tableRow _ ns)
  | n@(.tableCell _ ns) | n@(.footnoteDefinition _ _ ns) | n@(.emphasis _ ns) | n@(.strong _ ns)
  | n@(.delete _ ns) | n@(.link _ _ _ ns) | n@(.linkReference _ _ ns) => p n && allOf p ns
  | n => p n

/-- Whether all nodes of a list, and all nodes in them, satisfy `p`. -/
def allOf (p : Node → Bool) : List Node → Bool
  | [] => true
  | n :: ns => n.all p && allOf p ns

end

mutual

theorem Node.all_true : ∀ n : Node, n.all (fun _ => true) = true
  | .root _ ns | .paragraph _ ns | .heading _ _ ns | .blockquote _ ns | .list _ _ _ _ ns
  | .listItem _ _ ns | .table _ _ ns | .tableRow _ ns | .tableCell _ ns
  | .footnoteDefinition _ _ ns | .emphasis _ ns | .strong _ ns | .delete _ ns | .link _ _ _ ns
  | .linkReference _ _ ns => by
    rw [Node.all, Bool.true_and]
    exact allOf_true ns
  | .code .. | .html .. | .math .. | .thematicBreak .. | .definition .. | .text .. | .lineBreak ..
  | .inlineCode .. | .inlineMath .. | .image .. | .imageReference .. => rfl

theorem allOf_true : ∀ ns : List Node, allOf (fun _ => true) ns = true
  | [] => rfl
  | n :: ns => by rw [allOf, Node.all_true n, allOf_true ns, Bool.true_and]

end

/-- Whether a node is not HTML written by hand. -/
def Node.isMarkdown : Node → Bool
  | .html _ _ => false
  | _ => true

/-- Whether a node is a row of a table. -/
def Node.isRow : Node → Bool
  | .tableRow _ _ => true
  | _ => false

/-- Whether a node holds nothing but rows, if it is a table. -/
def Node.hasOnlyRows : Node → Bool
  | .table _ _ ns => ns.all Node.isRow
  | _ => true

/-- Whether a condition lets HTML into a tree. -/
def AllowsHtml (p : Node → Bool) : Prop := ∃ extent? value, p (.html extent? value) = true

/-- Whether a condition lets tables into a tree that hold anything but rows. -/
def AllowsStray (p : Node → Bool) : Prop :=
  ∃ extent? columns ns, p (.table extent? columns ns) = true ∧ ns.all Node.isRow = false

theorem not_allowsHtml : ¬ AllowsHtml Node.isMarkdown := fun ⟨_, _, h⟩ => Bool.false_ne_true h

theorem not_allowsStray : ¬ AllowsStray Node.hasOnlyRows := fun ⟨_, _, _, h, h'⟩ => by
  rw [Node.hasOnlyRows, h'] at h
  exact Bool.false_ne_true h

end MarkdownPreview.Markdown
