import Mathlib.Algebra.GroupWithZero.Nat
import MarkdownPreview.Proofs.Text.Scan
import MarkdownPreview.Text.Bytes

/-!
# Places counted in bytes

The places of a text that are the size of what stands before them (`byteSize`) are those where a
character starts. What a slice between such places is can be read off the text written down in
parts.
-/

set_option autoImplicit false

namespace MarkdownPreview.Text

variable {us vs ds : List Char} {k m n : Nat}

/-! ## Bytes -/

/-- The number of bytes a text takes. -/
def byteSize (cs : List Char) : Nat := (cs.map Char.utf8Size).sum

theorem byteSize_nil : byteSize [] = 0 := rfl

theorem byteSize_cons (c : Char) (cs : List Char) :
    byteSize (c :: cs) = c.utf8Size + byteSize cs := by
  simp [byteSize]

theorem byteSize_append (us vs : List Char) : byteSize (us ++ vs) = byteSize us + byteSize vs := by
  simp [byteSize]

theorem dropBytes?_cons (c : Char) (cs : List Char) (n : Nat) :
    dropBytes? (c.utf8Size + n) (c :: cs) = dropBytes? n cs := by
  obtain ⟨k, hk⟩ := Nat.exists_eq_add_one.mpr c.utf8Size_pos
  have hsize : c.utf8Size + n = (k + n) + 1 := by omega
  rw [hsize, dropBytes?, if_pos (by omega)]
  congr 1
  omega

theorem takeBytes?_cons (c : Char) (cs : List Char) (n : Nat) :
    takeBytes? (c.utf8Size + n) (c :: cs) = (takeBytes? n cs).map (c :: ·) := by
  obtain ⟨k, hk⟩ := Nat.exists_eq_add_one.mpr c.utf8Size_pos
  have hsize : c.utf8Size + n = (k + n) + 1 := by omega
  rw [hsize, takeBytes?, if_pos (by omega)]
  congr 2
  omega

theorem dropBytes?_append (us vs : List Char) (k : Nat) :
    dropBytes? (byteSize us + k) (us ++ vs) = dropBytes? k vs := by
  induction us with
  | nil => simp [byteSize]
  | cons c us ih => rw [byteSize_cons, Nat.add_assoc, List.cons_append, dropBytes?_cons, ih]

theorem takeBytes?_append (us vs : List Char) (k : Nat) :
    takeBytes? (byteSize us + k) (us ++ vs) = (takeBytes? k vs).map (us ++ ·) := by
  induction us with
  | nil => simp [byteSize]
  | cons c us ih =>
    rw [byteSize_cons, Nat.add_assoc, List.cons_append, takeBytes?_cons, ih, Option.map_map]
    rfl

/-- Whether a character ends at a place is known from the text before it. -/
theorem dropBytes?_append_left (h : n ≤ byteSize us) (vs : List Char) :
    dropBytes? n (us ++ vs) = (dropBytes? n us).map (· ++ vs) := by
  induction us generalizing n with
  | nil =>
    obtain rfl : n = 0 := by simpa [byteSize] using h
    simp [dropBytes?]
  | cons c us ih =>
    cases n with
    | zero => rfl
    | succ n =>
      rw [byteSize_cons] at h
      rw [List.cons_append, dropBytes?, dropBytes?]
      split
      · exact ih (by omega)
      · rfl

theorem takeBytes?_append_left (h : n ≤ byteSize us) (vs : List Char) :
    takeBytes? n (us ++ vs) = takeBytes? n us := by
  induction us generalizing n with
  | nil =>
    obtain rfl : n = 0 := by simpa [byteSize] using h
    simp [takeBytes?]
  | cons c us ih =>
    cases n with
    | zero => rfl
    | succ n =>
      rw [byteSize_cons] at h
      rw [List.cons_append, takeBytes?, takeBytes?, ih (by omega)]

theorem byteSize_of_dropBytes? (h : dropBytes? n us = some ds) :
    byteSize us = n + byteSize ds := by
  induction us generalizing n with
  | nil =>
    cases n with
    | zero =>
      obtain rfl : [] = ds := by simpa [dropBytes?] using h
      rfl
    | succ n => simp [dropBytes?] at h
  | cons c us ih =>
    cases n with
    | zero =>
      obtain rfl : c :: us = ds := by simpa [dropBytes?] using h
      simp
    | succ n =>
      rw [dropBytes?] at h
      split at h
      · rw [byteSize_cons, ih h]
        omega
      · cases h

/-! ## Slices -/

theorem dropBytes?_byteSize (us vs : List Char) :
    dropBytes? (byteSize us) (us ++ vs) = some vs := by
  have h := dropBytes?_append us vs 0
  rwa [Nat.add_zero, dropBytes?] at h

theorem takeBytes?_byteSize (us vs : List Char) :
    takeBytes? (byteSize us) (us ++ vs) = some us := by
  have h := takeBytes?_append us vs 0
  rwa [Nat.add_zero, takeBytes?, Option.map_some, List.append_nil] at h

theorem slice?_byteSize (us vs ws : List Char) :
    slice? (byteSize us) (byteSize (us ++ vs)) (us ++ (vs ++ ws)) = some vs := by
  have hsize := byteSize_append us vs
  have hle : byteSize us ≤ byteSize (us ++ vs) := by omega
  have hdiff : byteSize (us ++ vs) - byteSize us = byteSize vs := by omega
  rw [slice?, if_pos hle, dropBytes?_byteSize, Option.bind_some, hdiff, takeBytes?_byteSize]

/-- A slice that ends before a text is not touched by it. -/
theorem slice?_append_left (h : m ≤ byteSize us) (vs : List Char) :
    slice? n m (us ++ vs) = slice? n m us := by
  rw [slice?, slice?]
  split
  · rename_i hle
    rw [dropBytes?_append_left (Nat.le_trans hle h)]
    cases hdrop : dropBytes? n us with
    | none => rfl
    | some ds =>
      have hsize := byteSize_of_dropBytes? hdrop
      exact takeBytes?_append_left (by omega) vs
  · rfl

/-- A slice that starts after a text moves with it. -/
theorem slice?_append_right (us vs : List Char) (n m : Nat) :
    slice? (byteSize us + n) (byteSize us + m) (us ++ vs) = slice? n m vs := by
  rw [slice?, slice?, dropBytes?_append, Nat.add_sub_add_left]
  simp only [Nat.add_le_add_iff_left]

/-- A slice from one text into another is the end of the one and the start of the other. -/
theorem slice?_append_across (h : n ≤ byteSize us) (vs : List Char) (k : Nat) :
    slice? n (byteSize us + k) (us ++ vs)
      = (dropBytes? n us).bind fun ds => (takeBytes? k vs).map (ds ++ ·) := by
  rw [slice?, if_pos (by omega), dropBytes?_append_left h]
  cases hdrop : dropBytes? n us with
  | none => rfl
  | some ds =>
    have hsize := byteSize_of_dropBytes? hdrop
    have hrest : byteSize us + k - n = byteSize ds + k := by omega
    rw [hrest, Option.map_some, Option.bind_some, Option.bind_some, takeBytes?_append]

end MarkdownPreview.Text
