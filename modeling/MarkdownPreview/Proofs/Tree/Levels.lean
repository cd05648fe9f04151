import MarkdownPreview.Token.Basic

/-!
# What holds on every level of a tree

A token tree is a list of tokens, its top level, in which each token may have a further level as its
children. `EveryLevel Q` says that `Q` holds of all of them. `Q` is told, as a change of levels is
(`mapLevels`), which kind of token a level belongs to, and `none` for the top level.

The one theorem is `EveryLevel.mapLevels`: a change that is right on one level is right on all of
them. A level is changed after those below it, so what is asked of it must not hang on what its
tokens have as children (`Blind`).
-/

set_option autoImplicit false

namespace MarkdownPreview

/-- A property of levels, which is told which kind of token a level belongs to. -/
abbrev LevelProp : Type := Option Kind → List Token → Prop

mutual

/-- Every level below a token satisfies `Q`. -/
def Token.HoldsBelow (Q : LevelProp) : Token → Prop
  | .mk kind _ _ _ _ _ _ children _ _ => ChildrenHold Q kind children

/-- The children of a token of a kind, and every level below them, satisfy `Q`. -/
def ChildrenHold (Q : LevelProp) (kind : Kind) : Option (List Token) → Prop
  | none => True
  | some ts => Q (some kind) ts ∧ HoldBelow Q ts

/-- Every level below the tokens of a level satisfies `Q`. -/
def HoldBelow (Q : LevelProp) : List Token → Prop
  | [] => True
  | t :: ts => t.HoldsBelow Q ∧ HoldBelow Q ts

end

/-- A level and every level below it satisfy `Q`. -/
def HoldsAt (Q : LevelProp) (parent? : Option Kind) (ts : List Token) : Prop :=
  Q parent? ts ∧ HoldBelow Q ts

/-- Every level of a tree satisfies `Q`. -/
def EveryLevel (Q : LevelProp) (ts : List Token) : Prop := HoldsAt Q none ts

section

variable (Q : LevelProp) [∀ parent? ts, Decidable (Q parent? ts)]

mutual

def Token.decHoldsBelow : (t : Token) → Decidable (t.HoldsBelow Q)
  | .mk kind _ _ _ _ _ _ children _ _ => decChildrenHold kind children

/-- Decides whether children, and every level below them, satisfy `Q`. -/
def decChildrenHold (kind : Kind) :
    (children : Option (List Token)) → Decidable (ChildrenHold Q kind children)
  | none => isTrue trivial
  | some ts =>
    have := decHoldBelow ts
    inferInstanceAs (Decidable (Q (some kind) ts ∧ HoldBelow Q ts))

/-- Decides whether every level below the tokens of a level satisfies `Q`. -/
def decHoldBelow : (ts : List Token) → Decidable (HoldBelow Q ts)
  | [] => isTrue trivial
  | t :: ts =>
    have := Token.decHoldsBelow t
    have := decHoldBelow ts
    inferInstanceAs (Decidable (t.HoldsBelow Q ∧ HoldBelow Q ts))

end

instance (ts : List Token) : Decidable (EveryLevel Q ts) :=
  have := decHoldBelow Q ts
  inferInstanceAs (Decidable (Q none ts ∧ HoldBelow Q ts))

end

variable {Q Q' : LevelProp}

theorem holdBelow_iff {ts : List Token} : HoldBelow Q ts ↔ ∀ t ∈ ts, t.HoldsBelow Q := by
  induction ts with
  | nil => simp [HoldBelow]
  | cons t ts ih => simp [HoldBelow, ih]

theorem Token.holdsBelow_iff {t : Token} :
    t.HoldsBelow Q ↔ ∀ cs, t.children = some cs → HoldsAt Q (some t.kind) cs := by
  cases t with
  | mk kind tag nesting attrs content info markup children block hidden =>
    cases children with
    | none => simp [Token.HoldsBelow, ChildrenHold]
    | some cs => simp [Token.HoldsBelow, ChildrenHold, HoldsAt]

/-- A token without children has no level below it. -/
theorem Token.holdsBelow_of_none {t : Token} (h : t.children = none) : t.HoldsBelow Q :=
  Token.holdsBelow_iff.mpr fun _ hc => by rw [h] at hc; cases hc

/-- The levels below a token are settled by its kind and its children. -/
theorem Token.HoldsBelow.congr {t u : Token} (h : t.HoldsBelow Q) (hk : u.kind = t.kind)
    (hc : u.children = t.children) : u.HoldsBelow Q := by
  rw [Token.holdsBelow_iff] at h ⊢
  rw [hk, hc]
  exact h

theorem HoldBelow.subset {ts us : List Token} (h : HoldBelow Q ts) (hs : us ⊆ ts) :
    HoldBelow Q us :=
  holdBelow_iff.mpr fun t ht => holdBelow_iff.mp h t (hs ht)

/-! ## Changing all levels -/

/-- A token without its children. -/
def Token.childless (t : Token) : Token := { t with children := none }

/-- Whether `Q` holds of a level does not hang on what its tokens have as children. -/
def Blind (Q : LevelProp) : Prop :=
  ∀ ⦃parent? : Option Kind⦄ ⦃ts us : List Token⦄,
    us.map Token.childless = ts.map Token.childless → Q parent? ts → Q parent? us

theorem Token.mapLevels_eq (f : Option Kind → List Token → List Token) (t : Token) :
    t.mapLevels f = { t with children := mapChildren f t.kind t.children } := by
  cases t
  rw [Token.mapLevels]

theorem mapBelow_eq_map (f : Option Kind → List Token → List Token) (ts : List Token) :
    mapBelow f ts = ts.map fun t => { t with children := mapChildren f t.kind t.children } := by
  induction ts with
  | nil => rfl
  | cons t ts ih => rw [mapBelow, ih, Token.mapLevels_eq]; rfl

/-- Tokens that get other children are the same without them. -/
theorem map_childless_children (children : Token → Option (List Token)) (ts : List Token) :
    (ts.map fun t => { t with children := children t }).map Token.childless
      = ts.map Token.childless := by
  rw [List.map_map]
  rfl

/-- What makes `f` a change of levels that leads from `Q` to `Q'`: done to a level where `Q` holds,
with `Q'` on all levels below it by then, it makes `Q'` hold there. -/
structure Leads (f : Option Kind → List Token → List Token) (Q Q' : LevelProp) : Prop where
  blind : Blind Q
  level : ∀ parent? ts, Q parent? ts → HoldBelow Q' ts → HoldsAt Q' parent? (f parent? ts)

theorem Leads.atBelow {f : Option Kind → List Token → List Token} (hf : Leads f Q Q')
    {parent? : Option Kind} {ts : List Token} (h : Q parent? ts)
    (hb : HoldBelow Q' (mapBelow f ts)) : HoldsAt Q' parent? (f parent? (mapBelow f ts)) := by
  -- Only children have been changed so far, and to those `Q` is blind.
  have hq : Q parent? (mapBelow f ts) := by
    rw [mapBelow_eq_map]
    exact hf.blind (map_childless_children _ ts) h
  exact hf.level _ _ hq hb

mutual

theorem Token.HoldsBelow.mapLevels {f : Option Kind → List Token → List Token}
    (hf : Leads f Q Q') : ∀ {t : Token}, t.HoldsBelow Q → (t.mapLevels f).HoldsBelow Q'
  | .mk _ _ _ _ _ _ _ _ _ _, h => by
    rw [Token.mapLevels]
    exact ChildrenHold.mapChildren hf h

theorem ChildrenHold.mapChildren {f : Option Kind → List Token → List Token}
    (hf : Leads f Q Q') {kind : Kind} : ∀ {children : Option (List Token)},
      ChildrenHold Q kind children → ChildrenHold Q' kind (mapChildren f kind children)
  | none, _ => trivial
  | some _, h => hf.atBelow h.1 (HoldBelow.mapBelow hf h.2)

theorem HoldBelow.mapBelow {f : Option Kind → List Token → List Token}
    (hf : Leads f Q Q') : ∀ {ts : List Token}, HoldBelow Q ts → HoldBelow Q' (mapBelow f ts)
  | [], _ => trivial
  | _ :: _, h => ⟨Token.HoldsBelow.mapLevels hf h.1, HoldBelow.mapBelow hf h.2⟩

end

/-- **A change that leads from `Q` to `Q'` on one level does so on every level.** -/
theorem EveryLevel.mapLevels {f : Option Kind → List Token → List Token} (hf : Leads f Q Q')
    {ts : List Token} (h : EveryLevel Q ts) : EveryLevel Q' (mapLevels f ts) :=
  hf.atBelow h.1 (HoldBelow.mapBelow hf h.2)

/-! ## Properties of tokens -/

/-- Every token of a tree satisfies `P`, which is told which kind of token it belongs to. -/
def Everywhere (P : Option Kind → Token → Prop) : List Token → Prop :=
  EveryLevel fun parent? ts => ∀ t ∈ ts, P parent? t

end MarkdownPreview
