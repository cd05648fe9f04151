import MarkdownPreview.Token.Size

/-!
# How deep a tree is

The depth of a token is that of its children, and the depth of a level is that of its deepest token.
-/

set_option autoImplicit false

namespace MarkdownPreview

namespace Token

theorem depth_eq (t : Token) : t.depth = childrenDepth t.children := by
  cases t
  rfl

theorem depth_eq_of_children {t : Token} {ts : List Token} (h : t.children = some ts) :
    t.depth = levelDepth ts + 1 := by
  rw [depth_eq, h]
  rfl

theorem depth_of_none {t : Token} (h : t.children = none) : t.depth = 0 := by
  rw [depth_eq, h]
  rfl

/-- Whatever else is changed about a token, its children say how deep it is. -/
theorem depth_congr {t u : Token} (h : t.children = u.children) : t.depth = u.depth := by
  rw [depth_eq, depth_eq, h]

end Token

theorem depth_le_levelDepth {t : Token} {ts : List Token} (h : t ∈ ts) :
    t.depth ≤ levelDepth ts := by
  induction ts with
  | nil => cases h
  | cons u ts ih =>
    rw [levelDepth]
    obtain rfl | h := List.mem_cons.mp h
    · exact Nat.le_max_left _ _
    · exact Nat.le_trans (ih h) (Nat.le_max_right _ _)

theorem levelDepth_le {ts : List Token} {depth : Nat} (h : ∀ t ∈ ts, t.depth ≤ depth) :
    levelDepth ts ≤ depth := by
  induction ts with
  | nil => exact Nat.zero_le _
  | cons t ts ih =>
    rw [levelDepth]
    exact Nat.max_le.mpr ⟨h t List.mem_cons_self, ih fun u hu => h u (List.mem_cons_of_mem _ hu)⟩

/-- Tokens of a level are together no deeper than it. -/
theorem levelDepth_le_of_subset {ts us : List Token} (h : us ⊆ ts) : levelDepth us ≤ levelDepth ts :=
  levelDepth_le fun _ ht => depth_le_levelDepth (h ht)

theorem levelDepth_modify_le {f : Token → Token} (hf : ∀ t, (f t).depth ≤ t.depth) (i : Nat)
    (ts : List Token) : levelDepth (ts.modify i f) ≤ levelDepth ts := by
  refine levelDepth_le fun u hu => ?_
  obtain ⟨k, hk⟩ := List.mem_iff_getElem?.mp hu
  rw [List.getElem?_modify] at hk
  obtain ⟨t, ht, rfl⟩ := Option.map_eq_some_iff.mp hk
  have hle := depth_le_levelDepth (List.mem_of_getElem? ht)
  split
  · exact Nat.le_trans (hf t) hle
  · exact hle

end MarkdownPreview
