import Mathlib.Data.List.Forall2
import MarkdownPreview.Preview.Rule
import MarkdownPreview.Proofs.Tree.Levels

/-!
# What the rules do to a level

All that the rules do to a level comes down to a few things: single tokens are changed (`Edit`), the
comment rule takes tokens out, variables taken apart are put together, and blank lines are put in. A
property of levels that outlives each of these (`Lasting`) outlives every rule; that is shown in
`MarkdownPreview.Proofs.Rules.Run`, once for all properties.

For a property of single tokens (`TokenLasting`) less has to be shown: that it outlives edits, and
that the tokens the rules make have it. Those that are not text hold finished HTML, of which there
are the six forms of `Written`.
-/

set_option autoImplicit false

namespace MarkdownPreview

/-- The finished HTML that rules put into a document. -/
inductive Written : String → Prop
  | noteOpening (kind : Note.NoteKind) : Written ("<span class='" ++ kind.name ++ "'>")
  | noteClosing : Written "</span>"
  | prose (text : String) : Written (Variable.highlight Prose.escape Prose.escape text)
  | code (text : String) :
      Written ("<code>" ++ Variable.highlight Html.escape Html.escape text ++ "</code>")
  | raised (name : String) : Written (Variable.span (Prose.escape name))
  | sample (content info : String) (finalBreak : Bool) :
      Written (Sample.render content info finalBreak)

/-- How a rule changes a single token. Its children stay, or go with it. -/
inductive Edit : Token → Token → Prop
  | refl (t : Token) : Edit t t
  | content (t : Token) (content : String) (h : t.kind = .text ∨ t.kind = .inline) :
      Edit t { t with content }
  | anchor (t : Token) (id : String) (h : t.kind = .opening .heading) :
      Edit t (Anchor.withId Rule.anchors t id)
  | mark (t : Token) (h : t.kind = .opening .link) : Edit t (t.setAttr "rel" "nofollow")
  | html (t : Token) (html : String)
      (h : t.kind = .text ∨ t.kind = .codeInline ∨ t.kind = .fence) (hw : Written html) :
      Edit t (Token.html html)

theorem Edit.markLink (t : Token) : Edit t (Markdown.markLink t) := by
  unfold Markdown.markLink
  split
  · rename_i h
    exact .mark t h
  · exact .refl t

theorem Edit.highlightToken (t : Token) : Edit t (Variable.highlightToken t) := by
  unfold Variable.highlightToken
  split
  · rename_i h
    split
    · exact .html t _ (.inl h) (.prose t.content)
    · exact .refl t
  · rename_i h
    exact .html t _ (.inr (.inl h)) (.code t.content)
  · exact .refl t

/-- No edit brings a level into the tree. -/
theorem Edit.holdsBelow {Q : LevelProp} {t u : Token} (h : Edit t u) (ht : t.HoldsBelow Q) :
    u.HoldsBelow Q := by
  cases h with
  | refl => exact ht
  | content c hk => exact ht.congr rfl rfl
  | anchor id hk => exact ht.congr rfl rfl
  | mark hk => exact ht.congr rfl rfl
  | html html hk hw => exact Token.holdsBelow_of_none rfl

/-- A level in which tokens have been edited, each at its place. -/
abbrev EditedTo : List Token → List Token → Prop := List.Forall₂ Edit

theorem EditedTo.refl (ts : List Token) : EditedTo ts ts :=
  List.forall₂_same.mpr fun t _ => .refl t

theorem EditedTo.map {f : Token → Token} (h : ∀ t, Edit t (f t)) (ts : List Token) :
    EditedTo ts (ts.map f) :=
  List.forall₂_map_right_iff.mpr (List.forall₂_same.mpr fun t _ => h t)

theorem EditedTo.modify {f : Token → Token} :
    ∀ {ts : List Token} {i : Nat}, (∀ t, ts[i]? = some t → Edit t (f t)) →
      EditedTo ts (ts.modify i f)
  | [], i, _ => by simp
  | t :: ts, 0, h => by
    rw [List.modify_zero_cons]
    exact .cons (h t rfl) (EditedTo.refl ts)
  | t :: ts, i + 1, h => by
    rw [List.modify_succ_cons]
    exact .cons (.refl t) (EditedTo.modify fun u hu => h u hu)

/-- What outlives every edit of a token holds of all tokens of an edited level. -/
theorem EditedTo.forall_mem {P : Token → Prop} (hP : ∀ {t u}, Edit t u → P t → P u)
    {ts us : List Token} (h : EditedTo ts us) (ht : ∀ t ∈ ts, P t) : ∀ u ∈ us, P u := by
  induction h with
  | nil => exact ht
  | cons hedit _ ih =>
    intro u hu
    rcases List.mem_cons.mp hu with rfl | hu
    · exact hP hedit (ht _ List.mem_cons_self)
    · exact ih (fun t hm => ht t (List.mem_cons_of_mem _ hm)) u hu

/-! ## Properties that last -/

/-- A property of levels that outlives all that the rules do to a level, notes apart. -/
structure Lasting (Q : LevelProp) : Prop where
  blind : Blind Q
  edit : ∀ {parent? ts us}, EditedTo ts us → Q parent? ts → Q parent? us
  within : ∀ {parent? ts} (start stop : Nat), Q parent? ts → Q parent? (removeWithin start stop ts)
  block : ∀ {parent? ts} {i : Nat}, ts[i]?.map Token.kind = some .inline →
    Q parent? ts → Q parent? (Comment.takeOutBlock ts i).1
  before : ∀ {parent? ts} (n : Nat), Q parent? ts → Q parent? (keepPaired (ts.take n))
  after : ∀ {parent? ts} (n : Nat), Q parent? ts → Q parent? (keepPaired (ts.drop n))
  rejoin : ∀ {parent? ts}, Q parent? ts → Q parent? (Variable.rejoin ts)
  spaced : ∀ {parent? ts}, Q parent? ts → Q parent? (BlankLines.addLevel ts)

/-- A property of tokens that outlives every edit and holds of the tokens that rules make. -/
structure TokenLasting (P : Option Kind → Token → Prop) : Prop where
  blind : ∀ {parent? t} (children : Option (List Token)), P parent? t →
    P parent? { t with children }
  edit : ∀ {parent? t u}, Edit t u → P parent? t → P parent? u
  text : ∀ parent? content, P parent? (Token.text content)
  html : ∀ {parent? html}, Written html → P parent? (Token.html html)

/-! ## Which tokens a level has afterwards -/

theorem filterPlaces_sublist (keep : Token → Nat → Bool) (ts : List Token) :
    List.Sublist (filterPlaces keep ts) ts := by
  have h : List.Sublist (filterPlaces keep ts) (ts.zipIdx.map Prod.fst) :=
    List.filter_sublist.map Prod.fst
  rwa [List.zipIdx_map_fst] at h

theorem removeWithin_sublist (start stop : Nat) (ts : List Token) :
    List.Sublist (removeWithin start stop ts) ts := by
  unfold removeWithin
  exact filterPlaces_sublist _ ts

theorem keepPaired_sublist (ts : List Token) : List.Sublist (keepPaired ts) ts := by
  unfold keepPaired
  exact filterPlaces_sublist _ ts

theorem takeOutBlock_sublist (ts : List Token) (i : Nat) :
    List.Sublist (Comment.takeOutBlock ts i).1 ts := by
  have hcut (start count : Nat) :
      List.Sublist (ts.take start ++ ts.drop (start + count)) ts := by
    have h : List.Sublist (ts.take start ++ ts.drop (start + count))
        (ts.take start ++ ts.drop start) :=
      (List.Sublist.refl _).append (List.drop_sublist_drop_left ts (Nat.le_add_right start count))
    rwa [List.take_append_drop] at h
  unfold Comment.takeOutBlock
  split
  split
  · exact List.Sublist.refl ts
  · exact hcut _ _

/-- Blank lines add nothing but line breaks. -/
theorem mem_addLevel {t : Token} : ∀ {ts : List Token}, t ∈ BlankLines.addLevel ts →
    t ∈ ts ∨ t = Token.newline
  | [], h => by simp [BlankLines.addLevel] at h
  | u :: us, h => by
    rw [BlankLines.addLevel] at h
    split at h
    · rcases List.mem_cons.mp h with rfl | h
      · exact .inl List.mem_cons_self
      · rcases List.mem_cons.mp h with rfl | h
        · exact .inr rfl
        · exact (mem_addLevel h).imp_left (List.mem_cons_of_mem _)
    · rcases List.mem_cons.mp h with rfl | h
      · exact .inl List.mem_cons_self
      · exact (mem_addLevel h).imp_left (List.mem_cons_of_mem _)

end MarkdownPreview
