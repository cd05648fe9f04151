import Mathlib.Data.List.Basic
import MarkdownPreview.Proofs.Lowering.Line
import MarkdownPreview.Proofs.Lowering.Passages

/-!
# The pictures of a document

A picture of the document is an image, or a reference to one that a definition resolves, if its
source is accepted. Its token stands in the text of a block, with the source, the alternative text
and the title that the tree gives, and the tokens of all pictures stand in document order
(`shows_block`).

Only a link can keep pictures back: a bare address that is not made a link is put back as it was
written, without its nodes, and a link that is not known where it was written is dropped. Neither
happens to a link that starts with a bracket.
-/

set_option autoImplicit false

namespace MarkdownPreview

/-! ## Tokens of pictures -/

/-- A picture of a document. -/
structure Picture where
  url : String
  alt : String
  title? : Option String
  deriving Repr, DecidableEq

def Picture.token (pic : Picture) : Token := Markdown.picture pic.url pic.alt pic.title?

def ownPictures (t : Token) : List Token := if t.kind = .image then [t] else []

/-- The pictures among running text. -/
def picturesIn (ts : List Token) : List Token := ts.flatMap ownPictures

/-- The pictures in the text of a block. -/
def picturesOf (t : Token) : List Token := if t.kind = .inline then picturesIn t.inner else []

/-- The pictures of a document, in order. -/
def pictures (ts : List Token) : List Token := ts.flatMap picturesOf

theorem picturesOf_inline (content : String) (ts : List Token) :
    picturesOf (Token.inline content ts) = picturesIn ts := if_pos rfl

theorem picturesIn_append (ts us : List Token) :
    picturesIn (ts ++ us) = picturesIn ts ++ picturesIn us := List.flatMap_append

theorem ownPictures_eq_nil {t : Token} (h : (t.kind == .image) = false) : ownPictures t = [] :=
  if_neg (by simpa using h)

theorem picturesOf_eq_nil {t : Token} (h : (t.kind == .inline) = false) : picturesOf t = [] :=
  if_neg (by simpa using h)

theorem picturesIn_eq_filter (ts : List Token) :
    picturesIn ts = ts.filter fun t => t.kind == .image := by
  induction ts with
  | nil => rfl
  | cons t ts ih =>
    rw [picturesIn, List.flatMap_cons, ← picturesIn, ih, ownPictures]
    by_cases hk : t.kind = .image
    · rw [if_pos hk, List.filter_cons_of_pos (by simp [hk]), List.singleton_append]
    · rw [if_neg hk, List.filter_cons_of_neg (by simp [hk]), List.nil_append]

/-! ## Some of the pictures, or all -/

section

variable {whole whole' : Prop} {f : Picture → Token} {ts us : List Token}
  {pics pics' : List Picture}

/-- Tokens are those of some of these pictures, in order, and of all of them if they are the whole. -/
structure Shows (whole : Prop) (f : Picture → Token) (ts : List Token) (pics : List Picture) :
    Prop where
  sublist : List.Sublist ts (pics.map f)
  eq : whole → ts = pics.map f

theorem shows_nil : Shows whole f [] [] := ⟨.refl _, fun _ => rfl⟩

theorem shows_map (f : Picture → Token) (pics : List Picture) : Shows whole f (pics.map f) pics :=
  ⟨.refl _, fun _ => rfl⟩

theorem Shows.append (h : Shows whole f ts pics) (h' : Shows whole f us pics') :
    Shows whole f (ts ++ us) (pics ++ pics') where
  sublist := by
    rw [List.map_append]
    exact h.sublist.append h'.sublist
  eq hwhole := by rw [List.map_append, h.eq hwhole, h'.eq hwhole]

/-- Pictures may be missing, unless the whole has them. -/
theorem Shows.lack (h : Shows whole f ts pics) (hnone : whole → pics' = []) :
    Shows whole f ts (pics ++ pics') where
  sublist := by
    rw [List.map_append]
    exact h.sublist.trans (List.sublist_append_left _ _)
  eq hwhole := by rw [hnone hwhole, List.append_nil, h.eq hwhole]

theorem Shows.imp (h : Shows whole f ts pics) (hwhole : whole' → whole) :
    Shows whole' f ts pics := ⟨h.sublist, fun h' => h.eq (hwhole h')⟩

/-- A part of the tokens, which is not the whole. -/
theorem Shows.part (h : Shows whole f ts pics) (hus : List.Sublist us ts) (hpart : ¬ whole') :
    Shows whole' f us pics := ⟨hus.trans h.sublist, fun h' => absurd h' hpart⟩

/-- Which of the pictures it is that the tokens show. -/
theorem Shows.exists_kept (h : Shows whole f ts pics) :
    ∃ kept, List.Sublist kept pics ∧ (whole → kept = pics) ∧ ts = kept.map f := by
  obtain ⟨kept, hkept, heq⟩ := List.sublist_map_iff.mp h.sublist
  refine ⟨kept, hkept, fun hwhole => hkept.eq_of_length ?_, heq⟩
  have hlength := congrArg List.length (heq.symm.trans (h.eq hwhole))
  rwa [List.length_map, List.length_map] at hlength

end

namespace Markdown

/-! ## Pictures of the tree -/

mutual

/-- The pictures of a node of running text. -/
def Node.pictures (s : Setting) : Node → List Picture
  | .image _ url alt title? => if s.acceptance.admits url then [⟨url, alt, title?⟩] else []
  | .imageReference _ identifier alt =>
    ((s.resolve? identifier).map fun d => ⟨d.url, alt, d.title?⟩).toList
  | .emphasis _ ns | .strong _ ns | .delete _ ns | .link _ _ _ ns | .linkReference _ _ ns =>
    picturesAmong s ns
  | _ => []

def picturesAmong (s : Setting) : List Node → List Picture
  | [] => []
  | n :: ns => n.pictures s ++ picturesAmong s ns

end

def Passage.pictures (s : Setting) : Passage → List Picture
  | .text _ ns => picturesAmong s ns
  | _ => []

/-- Whether a node is not a link around pictures, or one that was written in brackets. -/
def Node.bracketsPictures (s : Setting) : Node → Bool
  | .link extent? _ _ ns | .linkReference extent? _ ns =>
    LinkForm.ofSource (s.slice extent?) == .bracket || (picturesAmong s ns).isEmpty
  | _ => true

def Passage.bracketsPictures (s : Setting) : Passage → Bool
  | .text _ ns => allOf (Node.bracketsPictures s) ns
  | _ => true

/-! ## Pictures of a line -/

variable {s : Setting} {whole : Prop} {t : Token} {l m : Line} {pics pics' : List Picture}

/-- The pictures of a line so far. -/
def Line.pictures (l : Line) : List Token := picturesIn l.newest.reverse

abbrev Line.Shows (l : Line) (whole : Prop) (pics : List Picture) : Prop :=
  MarkdownPreview.Shows whole Picture.token l.pictures pics

theorem Line.pictures_congr (h : firm l.newest = firm m.newest) : l.pictures = m.pictures := by
  have hfirm (ts : List Token) : picturesIn ts.reverse = (picturesIn (firm ts)).reverse := by
    rw [picturesIn_eq_filter, picturesIn_eq_filter, firm, List.filter_filter, List.filter_reverse]
    refine congrArg List.reverse (List.filter_congr fun t _ => ?_)
    cases hk : t.kind <;> simp [isLoose, hk]
  rw [pictures, pictures, hfirm, hfirm, h]

theorem Line.pictures_add (l : Line) (t : Token) :
    (l.add t).pictures = l.pictures ++ ownPictures t := by
  rw [pictures, add, List.reverse_cons, picturesIn_append, picturesIn, picturesIn,
    List.flatMap_singleton, pictures, picturesIn]

namespace Line.Shows

theorem push (h : l.Shows whole pics) (text : List Char) : (l.push text).Shows whole pics := by
  rwa [Line.Shows, pictures_congr (firm_addText l.newest text)]

theorem hardBreak (h : l.Shows whole pics) : l.pushHardBreak.Shows whole pics := by
  rwa [Line.Shows, pictures_congr (firm_pushHardBreak l)]

/-- A token that is no picture adds none. -/
theorem other (h : l.Shows whole pics) (ht : (t.kind == .image) = false) :
    (l.add t).Shows whole pics := by
  rwa [Line.Shows, pictures_add, ownPictures_eq_nil ht, List.append_nil]

theorem html (h : l.Shows whole pics) (html : String) : (l.pushHtml html).Shows whole pics :=
  h.other (t := { kind := .htmlInline, content := html }) rfl

theorem picture (h : l.Shows whole pics) (pic : Picture) :
    (l.add pic.token).Shows whole (pics ++ [pic]) := by
  rw [Line.Shows, pictures_add]
  exact h.append (shows_map _ [pic])

/-- What is added between two tokens of an element. -/
theorem enclose {o d : Token} {k : Line → Line} (h : l.Shows whole pics)
    (ho : (o.kind == .image) = false) (hd : (d.kind == .image) = false)
    (hk : ∀ l pics, l.Shows whole pics → (k l).Shows whole (pics ++ pics')) :
    ((k (l.add o)).add d).Shows whole (pics ++ pics') :=
  (hk _ _ (h.other ho)).other hd

/-- A link in brackets that is not accepted: what was written around its text is put back. -/
theorem putBack {k : Line → Line} (h : l.Shows whole pics) (before after : List Char)
    (hk : ∀ l pics, l.Shows whole pics → (k l).Shows whole (pics ++ pics')) :
    ((k (l.push before)).push after).Shows whole (pics ++ pics') :=
  (hk _ _ (h.push before)).push after

end Line.Shows

/-- A link that does not start with a bracket has no pictures in it, under the condition. -/
theorem picturesAmong_eq_nil (extent? : Option Extent) {ns : List Node}
    (h : whole →
      (LinkForm.ofSource (s.slice extent?) == .bracket || (picturesAmong s ns).isEmpty) = true)
    (hform : LinkForm.ofSource (s.slice extent?) ≠ .bracket) : whole → picturesAmong s ns = [] := by
  intro hc
  have hempty := h hc
  rwa [beq_eq_false_iff_ne.mpr hform, Bool.false_or, List.isEmpty_iff] at hempty

/-- The source of a node that is not known where it was written does not start with a bracket. -/
theorem ofSource_slice_none : LinkForm.ofSource (s.slice none) ≠ .bracket := nofun

mutual

/-- **A node of running text adds its pictures to a line**, all of them if its links around pictures
are in brackets. -/
theorem shows_inline : ∀ (n : Node) (l : Line) (pics : List Picture),
    (whole → n.all (Node.bracketsPictures s) = true) → l.Shows whole pics →
      (inline s n l).Shows whole (pics ++ n.pictures s)
  | .text _ value, l, pics, _, h => by
    rw [inline]
    exact (h.push value.toList).lack fun _ => rfl
  | .lineBreak _, l, pics, _, h => by
    rw [inline]
    exact h.hardBreak.lack fun _ => rfl
  | .inlineCode _ value, l, pics, _, h => by
    rw [inline]
    exact (h.other rfl).lack fun _ => rfl
  | .html _ value, l, pics, _, h => by
    rw [inline]
    exact (h.html value).lack fun _ => rfl
  | .emphasis _ ns, l, pics, hc, h => by
    simp only [Node.all, Bool.and_eq_true] at hc
    rw [inline, Node.pictures]
    exact h.enclose rfl rfl fun l pics => shows_inlines ns l pics fun h => (hc h).2
  | .strong _ ns, l, pics, hc, h => by
    simp only [Node.all, Bool.and_eq_true] at hc
    rw [inline, Node.pictures]
    exact h.enclose rfl rfl fun l pics => shows_inlines ns l pics fun h => (hc h).2
  | .delete _ ns, l, pics, hc, h => by
    simp only [Node.all, Bool.and_eq_true] at hc
    rw [inline, Node.pictures]
    exact h.enclose rfl rfl fun l pics => shows_inlines ns l pics fun h => (hc h).2
  | .link e url title? ns, l, pics, hc, h => by
    simp only [Node.all, Bool.and_eq_true] at hc
    have hns := fun l pics => shows_inlines ns l pics fun h => (hc h).2
    have hnone := picturesAmong_eq_nil (s := s) e fun h => (hc h).1
    rw [Node.pictures]
    unfold inline
    split
    · exact h.enclose rfl rfl hns
    · split
      · exact h.enclose rfl rfl hns
      · split
        · exact h.lack (hnone ofSource_slice_none)
        · exact h.putBack _ _ hns
    · rename_i hform
      dsimp only
      split
      · exact h.enclose rfl rfl hns
      · exact (h.push _).lack (hnone (by rw [hform]; exact nofun))
  | .linkReference e identifier ns, l, pics, hc, h => by
    simp only [Node.all, Bool.and_eq_true] at hc
    have hns := fun l pics => shows_inlines ns l pics fun h => (hc h).2
    have hnone := picturesAmong_eq_nil (s := s) e fun h => (hc h).1
    rw [Node.pictures]
    unfold inline
    split
    · exact h.enclose rfl rfl hns
    · split
      · exact h.lack (hnone ofSource_slice_none)
      · exact h.putBack _ _ hns
  | .image e url alt title?, l, pics, _, h => by
    rw [inline, Node.pictures]
    split
    · exact h.picture ⟨url, alt, title?⟩
    · exact (h.push _).lack fun _ => rfl
  | .imageReference e identifier alt, l, pics, _, h => by
    unfold inline
    rw [Node.pictures]
    split
    · rename_i d hd
      rw [hd]
      exact h.picture ⟨d.url, alt, d.title?⟩
    · rename_i hd
      rw [hd]
      exact (h.push _).lack fun _ => rfl
  | .root .., l, pics, _, h | .paragraph .., l, pics, _, h | .heading .., l, pics, _, h
  | .blockquote .., l, pics, _, h | .list .., l, pics, _, h | .listItem .., l, pics, _, h
  | .code .., l, pics, _, h | .math .., l, pics, _, h | .thematicBreak .., l, pics, _, h
  | .table .., l, pics, _, h | .tableRow .., l, pics, _, h | .tableCell .., l, pics, _, h
  | .definition .., l, pics, _, h | .footnoteDefinition .., l, pics, _, h
  | .inlineMath .., l, pics, _, h => h.lack fun _ => rfl

theorem shows_inlines : ∀ (ns : List Node) (l : Line) (pics : List Picture),
    (whole → allOf (Node.bracketsPictures s) ns = true) → l.Shows whole pics →
      (inlines s ns l).Shows whole (pics ++ picturesAmong s ns)
  | [], l, pics, _, h => h.lack fun _ => rfl
  | n :: ns, l, pics, hc, h => by
    simp only [allOf, Bool.and_eq_true] at hc
    rw [inlines, picturesAmong, ← List.append_assoc]
    exact shows_inlines ns _ _ (fun h => (hc h).2) (shows_inline n l pics (fun h => (hc h).1) h)

end

/-! ## Pictures of a document -/

theorem picturesIn_raiseAll (ts : List Token) : picturesIn (raiseAll ts) = picturesIn ts := by
  rw [picturesIn, raiseAll, List.flatMap_assoc]
  refine List.flatMap_congr fun t _ => ?_
  split
  · rename_i ht
    have hraised := forall_mem_raiseText (P := fun t => ownPictures t = [])
      (fun _ => ownPictures_eq_nil rfl) (ownPictures_eq_nil rfl) (ownPictures_eq_nil rfl) t.content
    rw [List.flatMap_eq_nil_iff.mpr hraised, ownPictures_eq_nil (by rw [ht.1]; rfl)]
  · exact List.flatMap_singleton ..

theorem picturesOf_textToken (depth : Nat) (ns : List Node) :
    picturesOf (textToken s depth ns) = (inlines s ns {}).pictures := by
  have hraise : picturesOf (textToken s depth ns)
      = picturesIn (if s.superscript then raiseAll (inlineTokens s ns) else inlineTokens s ns) :=
    picturesOf_inline ..
  rw [hraise]
  split
  · exact picturesIn_raiseAll _
  · rfl

theorem shows_passage (p : Passage) (hc : whole → p.bracketsPictures s = true) :
    Shows whole Picture.token (pictures (p.tokens s)) (p.pictures s) := by
  have hother (t : Token) (ht : (t.kind == .inline) = false) :
      Shows whole Picture.token (pictures [t]) [] := by
    rw [pictures, List.flatMap_singleton, picturesOf_eq_nil ht]
    exact shows_nil
  cases p with
  | text depth ns =>
    rw [Passage.tokens, pictures, List.flatMap_singleton, picturesOf_textToken]
    exact shows_inlines ns {} [] hc shows_nil
  | definition _ extent? url =>
    rw [Passage.tokens]
    split
    · exact shows_nil
    · rw [pictures, List.flatMap_singleton, picturesOf_inline]
      exact Line.Shows.push (l := {}) shows_nil (s.slice extent?)
  | code extent? value lang? rest? =>
    refine hother _ ?_
    unfold codeToken
    dsimp only
    split <;> rfl
  | html _ | thematicBreak _ => exact hother _ rfl

theorem pictures_standing (ts : List Token) : pictures (standing ts) = pictures ts := by
  induction ts with
  | nil => rfl
  | cons t ts ih =>
    cases ht : isBorder t.kind with
    | false =>
      rw [standing, List.filter_cons_of_pos (by simp [ht])]
      exact congrArg (picturesOf t ++ ·) ih
    | true =>
      have hk : (t.kind == .inline) = false := by
        rw [beq_eq_false_iff_ne]
        intro hk
        rw [hk] at ht
        cases ht
      rw [standing, List.filter_cons_of_neg (by simp [ht]), ← standing, ih, pictures, pictures,
        List.flatMap_cons, picturesOf_eq_nil hk, List.nil_append]

/-- **The pictures of a block are those of its passages**, in document order, all of them if the
links around pictures are in brackets. -/
theorem shows_block (depth : Nat) (n : Node) :
    Shows ((n.passages depth).all (Passage.bracketsPictures s) = true) Picture.token
      (pictures (block s depth n)) ((n.passages depth).flatMap (Passage.pictures s)) := by
  have hall {whole : Prop} (ps : List Passage)
      (hps : ∀ p ∈ ps, whole → p.bracketsPictures s = true) :
      Shows whole Picture.token (pictures (ps.flatMap (Passage.tokens s)))
        (ps.flatMap (Passage.pictures s)) := by
    induction ps with
    | nil => exact shows_nil
    | cons p ps ih =>
      rw [List.forall_mem_cons] at hps
      rw [List.flatMap_cons, List.flatMap_cons, pictures, List.flatMap_append]
      exact (shows_passage p hps.1).append (ih hps.2)
  rw [← pictures_standing, standing_block]
  exact hall _ fun p hp hbrackets => List.all_eq_true.mp hbrackets p hp

end Markdown

end MarkdownPreview
