import MarkdownPreview.Markdown.Block
import MarkdownPreview.Proofs.Lowering.Cuts
import MarkdownPreview.Proofs.Lowering.Superscripts
import MarkdownPreview.Proofs.Text.Trim
import MarkdownPreview.Proofs.Tree.Nodes

/-!
# Nothing but spaces is lost

The tokens of running text say what its nodes say, up to spaces, if every link is accepted and every
reference has a definition. On both sides a break says a line feed, code and HTML say what they are,
and a picture says its alternative text; an element says what is in it.

Spaces are what a break may drop before and after it. A text that is dropped as a whole had nothing
else in it, and what a break finds before it is looked at only if it is text. So every step adds, up
to spaces, what it was given, and the rest is an induction on the nodes.
-/

set_option autoImplicit false

namespace MarkdownPreview.Markdown

open Text

/-- A text without its spaces. -/
def ink (cs : List Char) : List Char := cs.filter (· != ' ')

/-- What a token of running text says. -/
def saying (t : Token) : List Char :=
  match t.kind with
  | .text | .codeInline | .htmlInline | .image => t.content.toList
  | .softbreak | .hardbreak => ['\n']
  | _ => []

mutual

/-- What a node of running text says, and the nodes in it. -/
def Node.saying : Node → List Char
  | .text _ value | .inlineCode _ value | .html _ value => value.toList
  | .lineBreak _ => ['\n']
  | .image _ _ alt _ | .imageReference _ _ alt => alt.toList
  | .emphasis _ ns | .strong _ ns | .delete _ ns | .link _ _ _ ns | .linkReference _ _ ns =>
    sayingOf ns
  | _ => []

def sayingOf : List Node → List Char
  | [] => []
  | n :: ns => n.saying ++ sayingOf ns

end

/-- Whether a node is one of running text, where a reference has one of these definitions. -/
def Node.isResolved (definitions : List (String × Destination)) : Node → Bool
  | .text _ _ | .lineBreak _ | .inlineCode _ _ | .html _ _ | .emphasis _ _ | .strong _ _
  | .delete _ _ | .link _ _ _ _ | .image _ _ _ _ => true
  | .linkReference _ identifier _ | .imageReference _ identifier _ =>
    (definitions.lookup identifier).isSome
  | _ => false

variable {s : Setting} {f : Token → List Char} {ts : List Token} {t : Token}

/-! ## Spaces -/

@[simp] theorem ink_nil : ink [] = [] := rfl

theorem ink_append (cs ds : List Char) : ink (cs ++ ds) = ink cs ++ ink ds :=
  List.filter_append cs ds

theorem ink_dropEndWhile (cs : List Char) : ink (dropEndWhile (· == ' ') cs) = ink cs := by
  rw [dropEndWhile_eq_rdropWhile]
  induction cs using List.reverseRecOn with
  | nil => rfl
  | append_singleton cs c ih =>
    by_cases hc : c = ' '
    · rw [List.rdropWhile_concat_pos _ _ _ (by simp [hc]), ih, ink_append, hc]
      exact (List.append_nil _).symm
    · rw [List.rdropWhile_concat_neg _ _ _ (by simp [hc])]

/-! ## What a line says -/

/-- A way to read tokens that takes all but raised text as it is. -/
def Reads (f : Token → List Char) : Prop :=
  ∀ t : Token, t.kind ≠ .opening .sup → t.kind ≠ .closing .sup → f t = saying t

/-- What is read of tokens, newest first, without the spaces. -/
def inkOf (f : Token → List Char) (ts : List Token) : List Char := ink (ts.reverse.flatMap f)

theorem inkOf_cons (f : Token → List Char) (t : Token) (ts : List Token) :
    inkOf f (t :: ts) = inkOf f ts ++ ink (f t) := by
  rw [inkOf, List.reverse_cons, List.flatMap_append, ink_append, List.flatMap_singleton, inkOf]

/-- A token that raises nothing adds what it says. -/
theorem inkOf_add (hf : Reads f) (ts : List Token) (hup : t.kind ≠ .opening .sup)
    (hdown : t.kind ≠ .closing .sup) : inkOf f (t :: ts) = inkOf f ts ++ ink (saying t) := by
  rw [inkOf_cons, hf t hup hdown]

theorem Reads.text (hf : Reads f) (hk : t.kind = .text) : f t = t.content.toList := by
  rw [hf t (by simp [hk]) (by simp [hk]), saying, hk]

theorem Reads.break (hf : Reads f) {kind : Kind} (hk : kind = .softbreak ∨ kind = .hardbreak) :
    f (breakToken kind) = ['\n'] := by
  rcases hk with rfl | rfl <;> exact hf _ (by decide) (by decide)

theorem inkOf_dropLastSpaces (hf : Reads f) (ts : List Token) :
    inkOf f (dropLastSpaces ts) = inkOf f ts := by
  cases ts with
  | nil => rfl
  | cons t ts =>
    rw [dropLastSpaces]
    split
    · rename_i hk
      have hkept := ink_dropEndWhile t.content.toList
      rw [inkOf_cons, hf.text hk, ← hkept]
      dsimp only
      split
      · rename_i hnil
        rw [List.isEmpty_iff.mp hnil, ink_nil, List.append_nil]
      · rw [inkOf_cons, hf.text (by exact hk), String.toList_ofList]
    · rfl

theorem inkOf_addChar (hf : Reads f) (ts : List Token) (c : Char) :
    inkOf f (addChar ts c) = inkOf f ts ++ ink [c] := by
  have htext : inkOf f (Token.text c.toString :: ts) = inkOf f ts ++ ink [c] := by
    have hc : (Token.text c.toString).content.toList = [c] := String.toList_singleton c
    rw [inkOf_cons, hf.text rfl, hc]
  unfold addChar
  split
  · rename_i hc
    rw [inkOf_cons, inkOf_dropLastSpaces hf, hf.break (.inl rfl), hc]
  · split
    · rename_i hspace
      rw [Bool.and_eq_true, decide_eq_true_eq] at hspace
      rw [hspace.1]
      exact (List.append_nil _).symm
    · split
      · exact htext
      · rename_i t rest _
        split
        · rename_i hk
          rw [inkOf_cons, inkOf_cons, hf.text hk, hf.text (by exact hk), String.toList_push,
            ink_append, List.append_assoc]
        · exact htext

theorem inkOf_addText (hf : Reads f) (ts : List Token) (text : List Char) :
    inkOf f (addText ts text) = inkOf f ts ++ ink text := by
  rw [addText_eq_foldl]
  induction text generalizing ts with
  | nil => exact (List.append_nil _).symm
  | cons c text ih =>
    rw [List.foldl_cons, ih, inkOf_addChar hf, List.append_assoc, ← ink_append,
      List.singleton_append]

/-- The tokens of an element around what is said say no more. -/
theorem inkOf_enclose (hf : Reads f) (e : Element) (he : e ≠ .sup) {o c : Token} {us : List Token}
    {cs : List Char} (ho : o.kind = .opening e) (hc : c.kind = .closing e)
    (h : inkOf f us = inkOf f (o :: ts) ++ cs) : inkOf f (c :: us) = inkOf f ts ++ cs := by
  have hopening : ink (saying o) = [] := by rw [saying, ho, ink_nil]
  have hclosing : ink (saying c) = [] := by rw [saying, hc, ink_nil]
  rw [inkOf_add hf us (by simp [hc]) (by simpa [hc] using he), hclosing, List.append_nil, h,
    inkOf_add hf ts (by simpa [ho] using he) (by simp [ho]), hopening, List.append_nil]

theorem Setting.resolve?_of_lenient (hs : s.acceptance = .lenient) {identifier : String}
    (h : (s.definitions.lookup identifier).isSome = true) :
    ∃ d, s.resolve? identifier = some d := by
  obtain ⟨d, hd⟩ := Option.isSome_iff_exists.mp h
  exact ⟨d, by rw [Setting.resolve?, hd, hs]; rfl⟩

mutual

/-- **A node adds to a line what it says**, up to spaces. -/
theorem inkOf_inline (hf : Reads f) (hs : s.acceptance = .lenient) :
    ∀ (n : Node) (l : Line), n.all (Node.isResolved s.definitions) = true →
      inkOf f (inline s n l).newest = inkOf f l.newest ++ ink n.saying
  | .text _ value, l, _ => by
    rw [inline]
    exact inkOf_addText hf l.newest value.toList
  | .lineBreak _, l, _ => by
    rw [inline, Line.pushHardBreak, inkOf_cons, inkOf_dropLastSpaces hf, hf.break (.inr rfl),
      Node.saying]
  | .inlineCode _ value, l, _ => by
    rw [inline]
    exact inkOf_add hf l.newest nofun nofun
  | .html _ value, l, _ => by
    rw [inline]
    exact inkOf_add hf l.newest nofun nofun
  | .emphasis _ ns, l, h => by
    rw [Node.all, Bool.and_eq_true] at h
    rw [inline]
    exact inkOf_enclose hf .em nofun rfl rfl (inkOf_inlines hf hs ns _ h.2)
  | .strong _ ns, l, h => by
    rw [Node.all, Bool.and_eq_true] at h
    rw [inline]
    exact inkOf_enclose hf .strong nofun rfl rfl (inkOf_inlines hf hs ns _ h.2)
  | .delete _ ns, l, h => by
    rw [Node.all, Bool.and_eq_true] at h
    rw [inline]
    exact inkOf_enclose hf .strikethrough nofun rfl rfl (inkOf_inlines hf hs ns _ h.2)
  | .link e url title? ns, l, h => by
    rw [Node.all, Bool.and_eq_true] at h
    have hlink (title? : Option String) (markup : String) :
        inkOf f ((inlines s ns (l.add (linkOpening url title? markup))).add
          (linkClosing markup)).newest = inkOf f l.newest ++ ink (sayingOf ns) :=
      inkOf_enclose hf .link nofun rfl rfl (inkOf_inlines hf hs ns _ h.2)
    -- Whatever way it was written, the link is made.
    unfold inline
    split
    · exact hlink none "autolink"
    · rw [hs, Acceptance.admits, if_pos rfl]
      exact hlink title? ""
    · dsimp only
      rw [if_pos (.inl hs)]
      exact hlink none "linkify"
  | .linkReference e identifier ns, l, h => by
    rw [Node.all, Bool.and_eq_true] at h
    obtain ⟨d, hd⟩ := Setting.resolve?_of_lenient hs h.1
    unfold inline
    rw [hd]
    exact inkOf_enclose hf .link nofun rfl rfl (inkOf_inlines hf hs ns _ h.2)
  | .image e url alt title?, l, _ => by
    rw [inline, hs, Acceptance.admits, if_pos rfl]
    exact inkOf_add hf l.newest nofun nofun
  | .imageReference e identifier alt, l, h => by
    obtain ⟨d, hd⟩ := Setting.resolve?_of_lenient hs h
    unfold inline
    rw [hd]
    exact inkOf_add hf l.newest nofun nofun
  | .root .., _, h | .paragraph .., _, h | .heading .., _, h | .blockquote .., _, h
  | .list .., _, h | .listItem .., _, h | .table .., _, h | .tableRow .., _, h
  | .tableCell .., _, h | .footnoteDefinition .., _, h => by
    rw [Node.all, Bool.and_eq_true] at h
    exact absurd h.1 Bool.false_ne_true
  | .code .., _, h | .math .., _, h | .thematicBreak .., _, h | .definition .., _, h
  | .inlineMath .., _, h => absurd h Bool.false_ne_true

theorem inkOf_inlines (hf : Reads f) (hs : s.acceptance = .lenient) :
    ∀ (ns : List Node) (l : Line), allOf (Node.isResolved s.definitions) ns = true →
      inkOf f (inlines s ns l).newest = inkOf f l.newest ++ ink (sayingOf ns)
  | [], l, _ => by
    rw [inlines, sayingOf, ink_nil, List.append_nil]
  | n :: ns, l, h => by
    rw [allOf, Bool.and_eq_true] at h
    rw [inlines, inkOf_inlines hf hs ns _ h.2, inkOf_inline hf hs n l h.1, sayingOf, ink_append,
      List.append_assoc]

end

/-! ## The text of a block -/

theorem reads_saying : Reads saying := fun _ _ _ => rfl

theorem reads_writeBack : Reads (writeBack saying) := by
  intro t hopening hclosing
  unfold writeBack
  split
  · rename_i hk
    rw [saying, hk]
  · rw [if_neg (not_or.mpr ⟨hopening, hclosing⟩)]

theorem ink_flatMap_inlineTokens (hf : Reads f) (hs : s.acceptance = .lenient) {ns : List Node}
    (h : allOf (Node.isResolved s.definitions) ns = true) :
    ink ((inlineTokens s ns).flatMap f) = ink (sayingOf ns) := by
  have hline := inkOf_inlines hf hs ns {} h
  rwa [inkOf, ← inlineTokens] at hline

/-- **The tokens of running text say what its nodes say**, up to spaces, where every link is
accepted and every reference has a definition. So do the tokens of a block with superscripts, if the
two tokens around a raised run say its carets. -/
theorem ink_inlineTokens {s : Setting} (hs : s.acceptance = .lenient) {ns : List Node}
    (h : allOf (Node.isResolved s.definitions) ns = true) :
    ink ((inlineTokens s ns).flatMap saying) = ink (sayingOf ns)
      ∧ ∀ depth, ink ((textToken s depth ns).inner.flatMap (writeBack saying))
        = ink (sayingOf ns) := by
  refine ⟨ink_flatMap_inlineTokens reads_saying hs h, fun depth => ?_⟩
  have hraised := ink_flatMap_inlineTokens reads_writeBack hs h
  have hinner : (textToken s depth ns).inner
      = if s.superscript then raiseAll (inlineTokens s ns) else inlineTokens s ns := rfl
  rw [hinner]
  split
  · rw [flatMap_writeBack_raiseAll, hraised]
  · exact hraised

/-- Spaces around breaks, in one node and from one node to the next, and references to one
definition. -/
def spacedNodes : List Node :=
  [.text none "a  \n b ", .strong none [.lineBreak none, .text none "  c^2^ "],
    .linkReference none "d" [.inlineCode none "e f", .text none " \n "],
    .imageReference none "d" "g h", .html none "<br>"]

theorem ink_spacedNodes :
    let s : Setting := ⟨[], .lenient, true, [("d", ⟨"x", none⟩)]⟩
    let said := "a\nb\nc^2^ef\ngh<br>".toList
    s.acceptance = .lenient ∧ allOf (Node.isResolved s.definitions) spacedNodes = true
      ∧ ink ((inlineTokens s spacedNodes).flatMap saying) = said
      ∧ ∀ depth, ink ((textToken s depth spacedNodes).inner.flatMap (writeBack saying)) = said := by
  intro s said
  have h : allOf (Node.isResolved s.definitions) spacedNodes = true := by decide
  have hsaid : ink (sayingOf spacedNodes) = said := by decide
  obtain ⟨htokens, hblock⟩ := ink_inlineTokens (s := s) rfl h
  exact ⟨rfl, h, htokens.trans hsaid, fun depth => (hblock depth).trans hsaid⟩

end MarkdownPreview.Markdown
