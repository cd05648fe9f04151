import MarkdownPreview.Proofs.Headings.Ids

/-!
# Ids that clash

Headings that bring an id and headings that are given one share the names. One pass goes over them,
and at each heading only the names before it are taken (`Passes`). So a generated id is none of
those before it, generated or brought along, but it may be one that a later heading brings along. No
other two headings of a level that gets anchors have one id, unless both brought it.

Unlike the headings of a document, those of any list of tokens may bring ids along.
-/

set_option autoImplicit false

namespace MarkdownPreview.Anchor

open Slug

variable {s : Settings} {t u : Token} {ts : List Token} {taken after : Registry}

/-! ## One heading -/

/-- What becomes of a token when the anchors come to it, and the names that are taken after it. -/
inductive Passes (s : Settings) (taken : Registry) (t : Token) : Token → Registry → Prop
  | other (h : isSelected s t = false) : Passes s taken t t taken
  | kept {id : String} (h : isSelected s t = true) (hid : t.attrs.get? "id" = some id) :
      Passes s taken t t (taken.reserve id)
  | named {id : String} (h : isSelected s t = true) (hid : t.attrs.get? "id" = none)
      (hfree : id ∉ taken.taken) : Passes s taken t (withId s t id) (taken.reserve id)

theorem addAll_cons (s : Settings) (t : Token) (ts : List Token) (taken : Registry) :
    ∃ u after, Passes s taken t u after
      ∧ (addAll s (t :: ts) taken).1 = u :: (addAll s ts after).1 := by
  rw [addAll]
  split
  · rename_i hselected
    split
    · rename_i id hid
      exact ⟨t, taken.reserve id, .kept hselected hid, rfl⟩
    · rename_i hid
      dsimp only
      generalize s.slug (title _) = slug
      obtain ⟨n, hn, hfree, -⟩ := exists_firstFree_eq taken.taken slug
      have hnew : (taken.unique slug).1 ∉ taken.taken := by rwa [Registry.unique, hn]
      exact ⟨_, (taken.unique slug).2, .named hselected hid hnew, rfl⟩
  · rename_i hselected
    exact ⟨t, taken, .other (Bool.eq_false_iff.mpr hselected), rfl⟩

theorem Passes.taken_subset (h : Passes s taken t u after) : taken.taken ⊆ after.taken := by
  cases h with
  | other => exact fun _ hname => hname
  | kept | named => exact fun _ hname => List.mem_cons_of_mem _ hname

/-- A heading has an id afterwards, which is taken then: the one it brings along, or a new one. -/
theorem Passes.exists_id (h : Passes s taken t u after) (hu : isSelected s u = true) :
    ∃ id, u.attrs.get? "id" = some id ∧ id ∈ after.taken
      ∧ (t.attrs.get? "id" ≠ none → u = t)
      ∧ (t.attrs.get? "id" = none → id ∉ taken.taken) := by
  cases h with
  | other hselected => exact absurd hu (Bool.eq_false_iff.mp hselected)
  | @kept id _ hid =>
    refine ⟨id, hid, List.mem_cons_self, fun _ => rfl, fun hnone => ?_⟩
    rw [hid] at hnone
    cases hnone
  | @named id _ hid hfree =>
    exact ⟨id, get?_withId s t id, List.mem_cons_self, fun hne => absurd hid hne, fun _ => hfree⟩

/-! ## All headings -/

theorem length_addAll (s : Settings) (ts : List Token) (taken : Registry) :
    (addAll s ts taken).1.length = ts.length := by
  induction ts generalizing taken with
  | nil => rfl
  | cons t ts ih =>
    obtain ⟨u, after, -, heq⟩ := addAll_cons s t ts taken
    rw [heq, List.length_cons, List.length_cons, ih]

/-- Every heading has an id afterwards; one that is generated was not taken before. -/
theorem exists_id_addAll (s : Settings) (ts : List Token) (taken : Registry) :
    ∀ p ∈ ts.zip (addAll s ts taken).1, isSelected s p.2 = true →
      ∃ id, p.2.attrs.get? "id" = some id
        ∧ (p.1.attrs.get? "id" ≠ none → p.2 = p.1)
        ∧ (p.1.attrs.get? "id" = none → id ∉ taken.taken) := by
  induction ts generalizing taken with
  | nil => exact List.forall_mem_nil _
  | cons t ts ih =>
    obtain ⟨u, after, hpass, heq⟩ := addAll_cons s t ts taken
    rw [heq, List.zip_cons_cons, List.forall_mem_cons]
    constructor
    · intro hu
      obtain ⟨id, hid, -, hkept, hnew⟩ := hpass.exists_id hu
      exact ⟨id, hid, hkept, hnew⟩
    · intro p hp hselected
      obtain ⟨id, hid, hkept, hnew⟩ := ih after p hp hselected
      exact ⟨id, hid, hkept, fun hnone hmem => hnew hnone (hpass.taken_subset hmem)⟩

/-- Of two headings, each before and after it got its id, the later one has an id of its own unless
it brought it along. -/
def Apart (s : Settings) (p q : Token × Token) : Prop :=
  isSelected s p.2 = true → isSelected s q.2 = true → q.1.attrs.get? "id" = none →
    q.2.attrs.get? "id" ≠ p.2.attrs.get? "id"

theorem apart_addAll (s : Settings) (ts : List Token) (taken : Registry) :
    (ts.zip (addAll s ts taken).1).Pairwise (Apart s) := by
  induction ts generalizing taken with
  | nil => exact .nil
  | cons t ts ih =>
    obtain ⟨u, after, hpass, heq⟩ := addAll_cons s t ts taken
    rw [heq, List.zip_cons_cons]
    refine .cons (fun q hq hu hselected hnone hsame => ?_) (ih after)
    -- The id of the first heading is taken when the later one gets its own.
    obtain ⟨id, hid, htaken, -⟩ := hpass.exists_id hu
    obtain ⟨id', hid', -, hnew⟩ := exists_id_addAll s ts after q hq hselected
    rw [hid, hid'] at hsame
    obtain rfl := Option.some.inj hsame
    exact hnew hnone htaken

theorem apart_of_lt {i j : Nat} {p q : Token × Token}
    (hp : (ts.zip (addAll s ts taken).1)[i]? = some p)
    (hq : (ts.zip (addAll s ts taken).1)[j]? = some q) (h : i < j) : Apart s p q := by
  obtain ⟨hi, rfl⟩ := List.getElem?_eq_some_iff.mp hp
  obtain ⟨hj, rfl⟩ := List.getElem?_eq_some_iff.mp hq
  exact List.pairwise_iff_getElem.mp (apart_addAll s ts taken) i j hi hj h

/-- **A generated id clashes only with what a later heading brings along.** After the anchors every
heading from the level on has an id. One that it brought along is left as it is; one that is
generated is none of the names taken before, and of the other headings only one that comes later and
brought the very id along can have it too. -/
theorem clashes_only_with_later (s : Settings) (ts : List Token) (taken : Registry) :
    let us := (addAll s ts taken).1
    us.length = ts.length
    ∧ ∀ (i : Nat) (t u : Token), ts[i]? = some t → us[i]? = some u → isSelected s u = true →
      ∃ id, u.attrs.get? "id" = some id
        ∧ (t.attrs.get? "id" ≠ none → u = t)
        ∧ (t.attrs.get? "id" = none → id ∉ taken.taken
          ∧ ∀ (j : Nat) (v w : Token), ts[j]? = some v → us[j]? = some w →
            isSelected s w = true → j ≠ i → w.attrs.get? "id" = some id →
            i < j ∧ v.attrs.get? "id" = some id) := by
  intro us
  refine ⟨length_addAll s ts taken, fun i t u ht hu hselected => ?_⟩
  have hi : (ts.zip us)[i]? = some (t, u) := List.getElem?_zip_eq_some.mpr ⟨ht, hu⟩
  obtain ⟨id, hid, hkept, hnew⟩ :=
    exists_id_addAll s ts taken (t, u) (List.mem_of_getElem? hi) hselected
  refine ⟨id, hid, hkept, fun hnone => ⟨hnew hnone, fun j v w hv hw hother hne hclash => ?_⟩⟩
  have hj : (ts.zip us)[j]? = some (v, w) := List.getElem?_zip_eq_some.mpr ⟨hv, hw⟩
  have hlt : i < j := by
    refine Nat.lt_of_le_of_ne (Nat.not_lt.mp fun hlt => ?_) (Ne.symm hne)
    exact apart_of_lt hj hi hlt hother hselected hnone (hid.trans hclash.symm)
  -- The later heading is not given the id, so it brought it along.
  have hbrought : v.attrs.get? "id" ≠ none := fun hnone' =>
    apart_of_lt hi hj hlt hselected hother hnone' (hclash.trans hid.symm)
  obtain ⟨-, -, hsame, -⟩ :=
    exists_id_addAll s ts taken (v, w) (List.mem_of_getElem? hj) hother
  obtain rfl : w = v := hsame hbrought
  exact ⟨hlt, hclash⟩

/-- The tokens of two headings with one text, the second of which brings it along as its id. -/
def twoHeadings : List Token :=
  let heading (attrs : Attrs) : List Token :=
    [{ Token.ofBlock (.opening .heading) "h1" .opening with attrs },
      Token.inline "a" [Token.text "a"], Token.ofBlock (.closing .heading) "h1" .closing]
  heading [] ++ heading [("id", "a")]

theorem clashes_only_with_later_twoHeadings :
    let ts := twoHeadings
    let us := (addAll {} ts {}).1
    ∃ t u v w, (ts[0]? = some t ∧ us[0]? = some u ∧ isSelected {} u = true)
      ∧ (ts[3]? = some v ∧ us[3]? = some w ∧ isSelected {} w = true)
      ∧ t.attrs.get? "id" = none ∧ u.attrs.get? "id" = w.attrs.get? "id"
      ∧ v.attrs.get? "id" = u.attrs.get? "id" := by
  intro ts us
  let t : Token := Token.ofBlock (.opening .heading) "h1" .opening
  let v : Token := { t with attrs := [("id", "a")] }
  have ht : ts[0]? = some t := rfl
  have hv : ts[3]? = some v := rfl
  have hu : us[0]? = some (withId {} t "a") := by decide +kernel
  have hw : us[3]? = some v := by decide +kernel
  have hselected : isSelected {} (withId {} t "a") = true := by decide +kernel
  have hother : isSelected {} v = true := by decide +kernel
  obtain ⟨id, hid, -, hclashes⟩ :=
    (clashes_only_with_later {} ts {}).2 0 t (withId {} t "a") ht hu hselected
  obtain ⟨-, hlater⟩ := hclashes rfl
  have hsame : v.attrs.get? "id" = some id := by rw [← hid, get?_withId]; rfl
  obtain ⟨-, hbrought⟩ := hlater 3 v v hv hw hother (by decide) hsame
  exact ⟨t, _, v, v, ⟨ht, hu, hselected⟩, ⟨hv, hw, hother⟩, rfl, hid.trans hsame.symm,
    hbrought.trans hid.symm⟩

/-- A heading is given the id that a later one brings along. -/
theorem later_id_clashes :
    let ts := twoHeadings
    (ts.filter (isSelected { tabIndex := false })).map (·.attrs.get? "id") = [none, some "a"]
    ∧ ((addAll { tabIndex := false } ts {}).1.filter (isSelected { tabIndex := false })).map
      (·.attrs.get? "id") = [some "a", some "a"] := by
  decide +kernel

end MarkdownPreview.Anchor
