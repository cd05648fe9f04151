import Mathlib.Data.List.Forall2
import MarkdownPreview.Comment.Within
import MarkdownPreview.Proofs.Rules.Comments
import MarkdownPreview.Proofs.Tree.Levels
import MarkdownPreview.Proofs.Veil.Alike

/-!
# Tokens that differ in their comments

Two documents that differ in their comments become the same tokens, but for the text of a block: its
source is alike, and so are the texts among its tokens (`BlockLike`, `LeafLike`). What is asked of a
token in order to change a level is seldom its text; where it is something else, tokens of the two
documents answer the same, and the levels stay alike.
-/

set_option autoImplicit false

namespace MarkdownPreview

open Text

/-! ## Lists of related elements -/

namespace Veil

universe u v

variable {α : Type u} {β : Type v} {R : α → β → Prop} {xs : List α} {ys : List β}

theorem map_eq {γ : Type} {f : α → γ} {g : β → γ} (hfg : ∀ {x y}, R x y → f x = g y)
    (h : List.Forall₂ R xs ys) : xs.map f = ys.map g := by
  induction h with
  | nil => rfl
  | cons hxy _ ih => rw [List.map_cons, List.map_cons, hfg hxy, ih]

theorem isEmpty_eq (h : List.Forall₂ R xs ys) : xs.isEmpty = ys.isEmpty := by
  cases h <;> rfl

theorem findIdx?_eq {p : α → Bool} {q : β → Bool} (hpq : ∀ {x y}, R x y → p x = q y)
    (h : List.Forall₂ R xs ys) : xs.findIdx? p = ys.findIdx? q := by
  induction h with
  | nil => rfl
  | cons hxy _ ih => rw [List.findIdx?_cons, List.findIdx?_cons, hpq hxy, ih]

theorem getElem?_rel (h : List.Forall₂ R xs ys) (i : Nat) : Option.Rel R xs[i]? ys[i]? := by
  induction h generalizing i with
  | nil => exact .none
  | cons hxy _ ih =>
    cases i with
    | zero => exact .some hxy
    | succ i => simpa using ih i

theorem head?_rel (h : List.Forall₂ R xs ys) : Option.Rel R xs.head? ys.head? := by
  cases h with
  | nil => exact .none
  | cons hxy _ => exact .some hxy

/-- Elements at one place are changed; only there they have to stay related. -/
theorem forall₂_modify {f : α → α} {g : β → β} {i : Nat}
    (hfg : ∀ {x y}, xs[i]? = some x → R x y → R (f x) (g y)) (h : List.Forall₂ R xs ys) :
    List.Forall₂ R (xs.modify i f) (ys.modify i g) := by
  induction h generalizing i with
  | nil => simp
  | cons hxy h ih =>
    cases i with
    | zero => exact .cons (hfg rfl hxy) h
    | succ i => exact .cons hxy (ih fun hx => hfg (by simpa using hx))

theorem forall₂_set {x : α} {y : β} (hxy : R x y) (i : Nat) (h : List.Forall₂ R xs ys) :
    List.Forall₂ R (xs.set i x) (ys.set i y) := by
  induction h generalizing i with
  | nil => simp
  | cons h₀ h ih =>
    cases i with
    | zero => exact .cons hxy h
    | succ i => exact .cons h₀ (ih i)

theorem forall₂_dropWhile {p : α → Bool} {q : β → Bool} (hpq : ∀ {x y}, R x y → p x = q y)
    (h : List.Forall₂ R xs ys) : List.Forall₂ R (xs.dropWhile p) (ys.dropWhile q) := by
  induction h with
  | nil => exact .nil
  | cons hxy h ih =>
    rw [List.dropWhile_cons, List.dropWhile_cons, hpq hxy]
    split
    · exact ih
    · exact .cons hxy h

theorem forall₂_dropEndWhile {α : Type} {R : α → α → Prop} {xs ys : List α} {p : α → Bool}
    (hp : ∀ {x y}, R x y → p x = p y) (h : List.Forall₂ R xs ys) :
    List.Forall₂ R (dropEndWhile p xs) (dropEndWhile p ys) := by
  induction h with
  | nil => exact .nil
  | @cons x y xs ys hxy _ ih =>
    cases hx : dropEndWhile p xs <;> cases hy : dropEndWhile p ys <;> rw [hx, hy] at ih <;>
      simp only [dropEndWhile, hx, hy]
    · rw [hp hxy]
      split
      · exact .nil
      · exact .cons hxy .nil
    · cases ih
    · cases ih
    · exact .cons hxy ih

theorem forall₂_dropLast (h : List.Forall₂ R xs ys) : List.Forall₂ R xs.dropLast ys.dropLast := by
  rw [List.dropLast_eq_take, List.dropLast_eq_take, h.length_eq]
  exact List.forall₂_take _ h

theorem getLast?_rel (h : List.Forall₂ R xs ys) : Option.Rel R xs.getLast? ys.getLast? := by
  rw [List.getLast?_eq_getElem?, List.getLast?_eq_getElem?, h.length_eq]
  exact getElem?_rel h _

end Veil

/-- Elements of two levels are kept at the same places. -/
theorem forall₂_filterPlaces {R : Token → Token → Prop} {keep keep' : Token → Nat → Bool}
    (hkeep : ∀ {t u}, R t u → ∀ i, keep t i = keep' u i) {ts us : List Token}
    (h : List.Forall₂ R ts us) :
    List.Forall₂ R (filterPlaces keep ts) (filterPlaces keep' us) := by
  have hfrom : ∀ n, List.Forall₂ R
      (((ts.zipIdx n).filter fun place => keep place.1 place.2).map Prod.fst)
      (((us.zipIdx n).filter fun place => keep' place.1 place.2).map Prod.fst) := by
    induction h with
    | nil => exact fun _ => .nil
    | cons htu _ ih =>
      intro n
      rw [List.zipIdx_cons, List.zipIdx_cons, List.filter_cons, List.filter_cons]
      simp only [hkeep htu]
      split
      · exact .cons htu (ih (n + 1))
      · exact ih (n + 1)
  exact hfrom 0

/-! ## Tokens -/

variable {hides : List Char → List Char → Prop} {t u : Token} {ts us cs ds : List Token}
  {x y : String}

/-- The same text but for what comments hide. -/
abbrev AlikeText (hides : List Char → List Char → Prop) (x y : String) : Prop :=
  Comment.Alike hides x.toList y.toList

theorem isEmpty_eq_of_alike (h : AlikeText hides x y) : x.isEmpty = y.isEmpty := by
  rw [Bool.eq_iff_iff, String.isEmpty_iff, String.isEmpty_iff, ← String.toList_eq_nil_iff,
    ← String.toList_eq_nil_iff, h.nil_iff]

/-- The same token of running text, but for what the comments in its text hide. -/
inductive LeafLike (hides : List Char → List Char → Prop) : Token → Token → Prop
  | same {t : Token} (hk : t.kind ≠ .inline) : LeafLike hides t t
  | text {t : Token} {x y : String} (hk : t.kind = .text) (h : AlikeText hides x y) :
    LeafLike hides { t with content := x } { t with content := y }

/-- The same token of a document, but for what comments hide in its text; how it was written, which
no output shows, may differ. -/
inductive BlockLike (hides : List Char → List Char → Prop) : Token → Token → Prop
  | plain {t : Token} (markup : String) (hk : t.kind ≠ .inline) :
    BlockLike hides t { t with markup }
  | line {x y : String} {cs ds : List Token} (h : AlikeText hides x y)
    (hcs : List.Forall₂ (LeafLike hides) cs ds) :
    BlockLike hides (Token.inline x cs) (Token.inline y ds)

abbrev LevelLike (hides : List Char → List Char → Prop) : List Token → List Token → Prop :=
  List.Forall₂ (LeafLike hides)

abbrev DocumentLike (hides : List Char → List Char → Prop) : List Token → List Token → Prop :=
  List.Forall₂ (BlockLike hides)

namespace LeafLike

theorem kind_eq (h : LeafLike hides t u) : t.kind = u.kind := by
  cases h <;> rfl

theorem nesting_eq (h : LeafLike hides t u) : t.nesting = u.nesting := by
  cases h <;> rfl

theorem kind_ne_inline (h : LeafLike hides t u) : t.kind ≠ .inline := by
  cases h with
  | same hk => exact hk
  | text hk _ => exact fun h => absurd (hk.symm.trans h) (by decide)

/-- The content of a token as a text, whatever its kind. -/
theorem content (h : LeafLike hides t u) : AlikeText hides t.content u.content := by
  cases h with
  | same => exact .refl _
  | text _ h => exact h

/-- Text that is changed in the same way is alike again. -/
theorem recut {f : String → String}
    (hf : ∀ {x y}, AlikeText hides x y → AlikeText hides (f x) (f y)) (h : LeafLike hides t u) :
    LeafLike hides { t with content := f t.content } { u with content := f u.content } := by
  cases h with
  | same hk => exact .same hk
  | text hk h => exact .text hk (hf h)

/-- Texts that are alike may be put in the place of others. -/
theorem retext {xs ys : List Char} (h : LeafLike hides t u) (hk : t.kind = .text)
    (hxy : Comment.Alike hides xs ys) :
    LeafLike hides { t with content := String.ofList xs }
      { u with content := String.ofList ys } := by
  have htext : AlikeText hides (String.ofList xs) (String.ofList ys) := by
    rwa [AlikeText, String.toList_ofList, String.toList_ofList]
  cases h with
  | same => exact .text hk htext
  | text hk _ => exact .text hk htext

/-- Whatever becomes of the level below a token becomes of it in both. -/
theorem below (f : Option (List Token) → Option (List Token)) (h : LeafLike hides t u) :
    LeafLike hides { t with children := f t.children } { u with children := f u.children } := by
  cases h with
  | same hk => exact .same hk
  | @text t x y hk h => exact .text (t := { t with children := f t.children }) hk h

theorem children_eq (h : LeafLike hides t u) : t.children = u.children := by
  cases h <;> rfl

theorem eq_of_false (h : LeafLike (fun _ _ => False) t u) : t = u := by
  cases h with
  | same => rfl
  | text _ h => rw [String.toList_injective h.eq_of_false]

end LeafLike

namespace BlockLike

theorem kind_eq (h : BlockLike hides t u) : t.kind = u.kind := by
  cases h <;> rfl

theorem nesting_eq (h : BlockLike hides t u) : t.nesting = u.nesting := by
  cases h <;> rfl

theorem content (h : BlockLike hides t u) : AlikeText hides t.content u.content := by
  cases h with
  | plain => exact .refl _
  | line h _ => exact h

theorem refl (hk : t.kind ≠ .inline) : BlockLike hides t t := by
  cases t
  exact .plain _ hk

end BlockLike

theorem leafLike_text {cs ds : List Char} (h : Comment.Alike hides cs ds) :
    LeafLike hides (Token.text (String.ofList cs)) (Token.text (String.ofList ds)) := by
  refine .text (t := Token.text "") rfl ?_
  rwa [AlikeText, String.toList_ofList, String.toList_ofList]

/-- Levels in whose texts nothing can be hidden are the same. -/
theorem eq_of_levelLike_false (h : LevelLike (fun _ _ => False) ts us) : ts = us := by
  induction h with
  | nil => rfl
  | cons htu _ ih => rw [htu.eq_of_false, ih]

theorem leaves_of_levelLike (h : LevelLike hides ts us) :
    (∀ t ∈ ts, t.kind ≠ .inline) ∧ ∀ u ∈ us, u.kind ≠ .inline := by
  induction h with
  | nil => exact ⟨nofun, nofun⟩
  | cons htu _ ih =>
    exact ⟨List.forall_mem_cons.mpr ⟨htu.kind_ne_inline, ih.1⟩,
      List.forall_mem_cons.mpr ⟨htu.kind_eq ▸ htu.kind_ne_inline, ih.2⟩⟩

/-! ## Changes of levels -/

/-- A change of levels that leaves lines and documents alike. -/
structure Discreet (hides : List Char → List Char → Prop)
    (f : Option Kind → List Token → List Token) : Prop where
  line : ∀ {ts us}, LevelLike hides ts us → LevelLike hides (f (some .inline) ts)
    (f (some .inline) us)
  blocks : ∀ {ts us}, DocumentLike hides ts us → DocumentLike hides (f none ts) (f none us)

theorem Discreet.mapLevels {f : Option Kind → List Token → List Token} (hf : Discreet hides f)
    (h : DocumentLike hides ts us) : DocumentLike hides (mapLevels f ts) (mapLevels f us) := by
  have hline {cs ds : List Token} (h : LevelLike hides cs ds) :
      LevelLike hides (mapBelow f cs) (mapBelow f ds) := by
    rw [mapBelow_eq_map, mapBelow_eq_map]
    refine List.rel_map (fun t u htu => ?_) h
    have hbelow := htu.below (mapChildren f t.kind)
    rwa [← congrArg (mapChildren f) htu.kind_eq]
  apply hf.blocks
  rw [mapBelow_eq_map, mapBelow_eq_map]
  refine List.rel_map (fun t u htu => ?_) h
  cases htu with
  | plain markup hk => exact .plain markup hk
  | line h hcs => exact .line h (hf.line (hline hcs))

end MarkdownPreview
