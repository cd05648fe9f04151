import Mathlib.Data.List.Basic
import MarkdownPreview.Text.Scan

/-!
# What scanning and replacing keep

If all that a recogniser reads consists of elements with some property as long as the list does
(`Keeps`), then so does the list with its matches replaced. If what it reads weighs as much as what
it covers (`Conserves`), replacing leaves the weight of the list as it is.

A recogniser that sees the same at the start of a list as elsewhere (`Steady`) scans a list one step
at a time.
-/

set_option autoImplicit false

namespace MarkdownPreview.Text

universe u v w

variable {α : Type u} {β : Type v}

/-- What a recogniser reads in a list whose elements satisfy `P` satisfies `P`. -/
def Keeps (P : α → Prop) (m : Recogniser α (List α)) : Prop :=
  ∀ ⦃atStart xs hit⦄, (∀ x ∈ xs, P x) → m atStart xs = some hit → ∀ x ∈ hit.value, P x

theorem Keeps.replace {P : α → Prop} {m : Recogniser α (List α)} (hm : Keeps P m) {xs : List α}
    (h : ∀ x ∈ xs, P x) : ∀ x ∈ replace m xs, P x := by
  have hscan : ∀ (xs : List α) (atStart : Bool) (skip : Nat), (∀ x ∈ xs, P x) →
      ∀ y ∈ (scanFrom m atStart skip xs).flatMap (Sum.elim (fun x => [x]) id), P y := by
    intro xs
    induction xs with
    | nil =>
      intro atStart skip _ y hy
      simp [scanFrom] at hy
    | cons x xs ih =>
      intro atStart skip h y hy
      have hxs : ∀ x ∈ xs, P x := fun x hx => h x (List.mem_cons_of_mem _ hx)
      cases skip with
      | succ skip =>
        rw [scanFrom] at hy
        exact ih false skip hxs y hy
      | zero =>
        rw [scanFrom] at hy
        split at hy
        · rename_i hit hhit
          rcases List.mem_append.mp hy with hy | hy
          · exact hm h hhit y hy
          · exact ih false hit.more hxs y hy
        · rcases List.mem_cons.mp hy with rfl | hy
          · exact h y List.mem_cons_self
          · exact ih false 0 hxs y hy
  exact hscan xs true 0 h

/-- What is left without the matches is part of the list. -/
theorem erase_sublist (m : Recogniser α β) (xs : List α) : List.Sublist (erase m xs) xs := by
  have hscan : ∀ (xs : List α) (b : Bool) (skip : Nat),
      List.Sublist ((scanFrom m b skip xs).filterMap Sum.getLeft?) xs := by
    intro xs
    induction xs with
    | nil => simp [scanFrom]
    | cons x xs ih =>
      intro b skip
      cases skip with
      | succ skip =>
        rw [scanFrom]
        exact (ih false skip).trans (List.sublist_cons_self x xs)
      | zero =>
        rw [scanFrom]
        split
        · exact (ih false _).trans (List.sublist_cons_self x xs)
        · exact (ih false 0).cons_cons x
  exact hscan xs true 0

/-! ## One step of a scan -/

/-- What is recognised at a place does not hang on whether the list starts there. -/
def Steady (m : Recogniser α β) : Prop := ∀ b xs, m b xs = m true xs

namespace Steady

variable {m : Recogniser α β} (hm : Steady m)

include hm

theorem scanFrom_eq : ∀ (b : Bool) (skip : Nat) (xs : List α),
    scanFrom m b skip xs = scan m (xs.drop skip)
  | _, skip, [] => by simp [scan, scanFrom]
  | b, 0, x :: xs => by
    show scanFrom m b 0 (x :: xs) = scanFrom m true 0 (x :: xs)
    rw [scanFrom, scanFrom, hm b]
  | _, skip + 1, _ :: xs => by
    rw [scanFrom, scanFrom_eq false skip xs, List.drop_succ_cons]

theorem scan_hit {x : α} {xs : List α} {hit : Hit β} (h : m true (x :: xs) = some hit) :
    scan m (x :: xs) = .inr hit.value :: scan m (xs.drop hit.more) := by
  rw [scan, scanFrom, h]
  simp [hm.scanFrom_eq]

theorem scan_miss {x : α} {xs : List α} (h : m true (x :: xs) = none) :
    scan m (x :: xs) = .inl x :: scan m xs := by
  rw [scan, scanFrom, h]
  simp [hm.scanFrom_eq]

theorem erase_hit {x : α} {xs rest : List α} {hit : Hit β} (h : m true (x :: xs) = some hit)
    (hrest : xs.drop hit.more = rest) : erase m (x :: xs) = erase m rest := by
  rw [erase, hm.scan_hit h, hrest]
  rfl

theorem erase_miss {x : α} {xs : List α} (h : m true (x :: xs) = none) :
    erase m (x :: xs) = x :: erase m xs := by
  rw [erase, hm.scan_miss h]
  rfl

theorem pieces_cons {x : α} {xs : List α} (h : m true (x :: xs) = none) :
    pieces m (x :: xs) = ⟨x :: (pieces m xs).first, (pieces m xs).rest⟩ := by
  rw [pieces, hm.scan_miss h]
  rfl

/-- Where nothing is recognised, a list is taken apart as what follows is. -/
theorem pieces_miss {xs : List α} : ∀ {front : List α},
    (∀ s, s <:+ front → s ≠ [] → m true (s ++ xs) = none) →
    pieces m (front ++ xs) = ⟨front ++ (pieces m xs).first, (pieces m xs).rest⟩
  | [], _ => rfl
  | x :: front, h => by
    have hfront : pieces m (front ++ xs) = ⟨front ++ (pieces m xs).first, (pieces m xs).rest⟩ :=
      pieces_miss fun s hs => h s (hs.trans (List.suffix_cons x front))
    have hx : m true (x :: (front ++ xs)) = none := h _ List.suffix_rfl (List.cons_ne_nil x front)
    rw [List.cons_append, hm.pieces_cons hx, hfront]
    rfl

theorem pieces_hit {x : α} {xs rest : List α} {hit : Hit β} (h : m true (x :: xs) = some hit)
    (hrest : xs.drop hit.more = rest) :
    pieces m (x :: xs) = ⟨[], (hit.value, (pieces m rest).first) :: (pieces m rest).rest⟩ := by
  rw [pieces, hm.scan_hit h, hrest]
  rfl

end Steady

/-- A scan is read off its pieces as it is read off its elements. -/
theorem flatMap_ofScan {γ : Type w} (f : α → List γ) (g : β → List γ) (items : List (α ⊕ β)) :
    (Pieces.ofScan items).first.flatMap f
        ++ (Pieces.ofScan items).rest.flatMap (fun run => g run.1 ++ run.2.flatMap f)
      = items.flatMap (Sum.elim f g) := by
  induction items with
  | nil => rfl
  | cons item items ih => cases item <;> simp [Pieces.ofScan, ← ih]

/-- Something occurs in a list if the list comes apart. -/
theorem occurs_eq (m : Recogniser α β) (xs : List α) :
    occurs m xs = !(pieces m xs).rest.isEmpty := by
  rw [occurs, pieces]
  induction scan m xs with
  | nil => rfl
  | cons y ys ih =>
    cases y with
    | inl x => simp [Pieces.ofScan, ih]
    | inr b => rfl

namespace Steady

variable {m : Recogniser α (List α)} (hm : Steady m)

include hm

theorem replace_hit {x : α} {xs rest : List α} {hit : Hit (List α)}
    (h : m true (x :: xs) = some hit) (hrest : xs.drop hit.more = rest) :
    replace m (x :: xs) = hit.value ++ replace m rest := by
  rw [replace, hm.scan_hit h, hrest]
  rfl

theorem replace_miss {x : α} {xs : List α} (h : m true (x :: xs) = none) :
    replace m (x :: xs) = x :: replace m xs := by
  rw [replace, hm.scan_miss h]
  rfl

end Steady

/-! ## Searching for a fixed stretch -/

section Fixed

variable [BEq α] [LawfulBEq α] {mark front xs before after : List α}

theorem cut?_hit (hmark : mark ≠ []) (xs : List α) : cut? mark (mark ++ xs) = some ([], xs) := by
  cases mark with
  | nil => exact absurd rfl hmark
  | cons x mark =>
    have hrest : (x :: mark).isPrefixOf? (x :: (mark ++ xs)) = some xs := by
      simp
    rw [List.cons_append, cut?, hrest]

theorem cut?_miss {x : α} (h : ¬mark <+: x :: xs) :
    cut? mark (x :: xs) = (cut? mark xs).map fun (before, after) => (x :: before, after) := by
  rw [cut?]
  split
  · rename_i rest hrest
    exact absurd ⟨rest, List.isPrefixOf?_eq_some_iff_append_eq.mp hrest⟩ h
  · rfl

/-- A stretch that starts nowhere in the front of a list is found behind it, if at all. -/
theorem cut?_append (h : ∀ s, s <:+ front → s ≠ [] → ¬mark <+: s ++ xs) :
    cut? mark (front ++ xs)
      = (cut? mark xs).map fun (before, after) => (front ++ before, after) := by
  induction front with
  | nil => simp
  | cons x front ih =>
    have hx : ¬mark <+: x :: (front ++ xs) := h _ List.suffix_rfl (List.cons_ne_nil x front)
    rw [List.cons_append, cut?_miss hx, ih fun s hs => h s (hs.trans (List.suffix_cons x front)),
      Option.map_map]
    rfl

/-- The first such stretch is the one that no other starts before. -/
theorem cut?_first (hmark : mark ≠ [])
    (h : ∀ s, s <:+ front → s ≠ [] → ¬mark <+: s ++ (mark ++ xs)) :
    cut? mark (front ++ (mark ++ xs)) = some (front, xs) := by
  rw [cut?_append h, cut?_hit hmark]
  simp

theorem append_of_cut?_eq_some (h : cut? mark xs = some (before, after)) :
    xs = before ++ (mark ++ after) := by
  induction xs generalizing before with
  | nil => cases h
  | cons x xs ih =>
    rw [cut?] at h
    split at h
    · rename_i rest hrest
      cases h
      exact (List.isPrefixOf?_eq_some_iff_append_eq.mp hrest).symm
    · obtain ⟨⟨before, after⟩, hcut, heq⟩ := Option.map_eq_some_iff.mp h
      cases heq
      rw [ih hcut]
      rfl

omit [LawfulBEq α] in
theorem steady_exactly (mark : List α) (value : β) : Steady (exactly mark value) := fun _ _ => rfl

theorem exactly_hit {value : β} (hmark : mark ≠ []) (h : mark <+: xs) :
    exactly mark value true xs = some ⟨value, mark.length - 1⟩ := by
  cases mark with
  | nil => exact absurd rfl hmark
  | cons x mark =>
    rw [exactly, if_pos (List.isPrefixOf_iff_prefix.mpr h)]
    rfl

theorem exactly_miss {value : β} (h : ¬mark <+: xs) : exactly mark value true xs = none := by
  cases mark with
  | nil => rfl
  | cons x mark => rw [exactly, if_neg fun hstarts => h (List.isPrefixOf_iff_prefix.mp hstarts)]

theorem replace_exactly_hit {value : List α} (hmark : mark ≠ []) (xs : List α) :
    replace (exactly mark value) (mark ++ xs) = value ++ replace (exactly mark value) xs := by
  cases mark with
  | nil => exact absurd rfl hmark
  | cons x mark =>
    have hhit : exactly (x :: mark) value true (x :: (mark ++ xs)) = some ⟨value, mark.length⟩ :=
      exactly_hit hmark (List.prefix_append _ _)
    exact (steady_exactly (x :: mark) value).replace_hit hhit List.drop_left

theorem replace_exactly_miss {value : List α} {x : α} (h : ¬mark <+: x :: xs) :
    replace (exactly mark value) (x :: xs) = x :: replace (exactly mark value) xs :=
  (steady_exactly mark value).replace_miss (exactly_miss h)

theorem isPrefixOf?_eq_none_iff : mark.isPrefixOf? xs = none ↔ ¬mark <+: xs := by
  rw [Option.eq_none_iff_forall_ne_some]
  simp only [ne_eq, List.isPrefixOf?_eq_some_iff_append_eq]
  exact not_exists.symm

omit [BEq α] [LawfulBEq α] in
theorem prefix_append_cons_iff {x : α} {ys : List α} (hx : x ∉ mark) (xs : List α) :
    mark <+: xs ++ x :: ys ↔ mark <+: xs := by
  refine ⟨fun h => ?_, fun h => h.trans (List.prefix_append _ _)⟩
  by_cases hlen : mark.length ≤ xs.length
  · exact List.prefix_of_prefix_length_le h (List.prefix_append _ _) hlen
  · have hin : xs ++ [x] <+: mark := by
      refine List.prefix_of_prefix_length_le ⟨ys, by simp⟩ h ?_
      simp only [List.length_append, List.length_singleton]
      omega
    exact absurd (hin.subset (by simp)) hx

omit [BEq α] [LawfulBEq α] in
theorem infix_append_cons {x : α} {ys : List α} (hx : x ∉ mark) (xs : List α)
    (h : mark <:+: xs ++ x :: ys) : mark <:+: xs ∨ mark <:+: ys := by
  induction xs with
  | nil =>
    rcases List.infix_cons_iff.mp h with h | h
    · exact .inl ((prefix_append_cons_iff hx []).mp h).isInfix
    · exact .inr h
  | cons z zs ih =>
    rcases List.infix_cons_iff.mp h with h | h
    · exact .inl ((prefix_append_cons_iff hx (z :: zs)).mp h).isInfix
    · exact (ih h).imp_left fun h => h.trans (List.suffix_cons z zs).isInfix

omit [BEq α] [LawfulBEq α] in
/-- Induction along a list in which a stretch is looked for: it may be next, or not. -/
@[elab_as_elim]
theorem stretch_induction {motive : List α → Prop} (hmark : mark ≠ []) (nil : motive [])
    (hit : ∀ rest, motive rest → motive (mark ++ rest))
    (miss : ∀ x xs, ¬mark <+: x :: xs → motive xs → motive (x :: xs)) : ∀ xs, motive xs
  | [] => nil
  | x :: xs => by
    by_cases hstarts : mark <+: x :: xs
    · obtain ⟨rest, hrest⟩ := hstarts
      have hlt : rest.length < xs.length + 1 := by
        have hlen := congrArg List.length hrest
        have hpos := List.length_pos_of_ne_nil hmark
        simp only [List.length_append, List.length_cons] at hlen
        omega
      rw [← hrest]
      exact hit rest (stretch_induction hmark nil hit miss rest)
    · exact miss x xs hstarts (stretch_induction hmark nil hit miss xs)
termination_by xs => xs.length

/-- What a stretch does not have parts what is replaced before it from what is replaced after. -/
theorem replace_exactly_barrier {value : List α} {x : α} (hmark : mark ≠ []) (hx : x ∉ mark)
    (ys xs : List α) : replace (exactly mark value) (xs ++ x :: ys)
      = replace (exactly mark value) xs ++ x :: replace (exactly mark value) ys := by
  induction xs using stretch_induction hmark with
  | nil =>
    have hmiss : ¬mark <+: x :: ys := by
      intro h
      exact hmark (List.prefix_nil.mp ((prefix_append_cons_iff hx []).mp h))
    exact replace_exactly_miss hmiss
  | hit rest ih =>
    rw [List.append_assoc, replace_exactly_hit hmark, replace_exactly_hit hmark, ih,
      List.append_assoc]
  | miss z zs h ih =>
    have hlonger : ¬mark <+: z :: (zs ++ x :: ys) := fun hstarts =>
      h ((prefix_append_cons_iff hx (z :: zs)).mp hstarts)
    rw [List.cons_append, replace_exactly_miss hlonger, replace_exactly_miss h, ih,
      List.cons_append]

/-- What a stretch does not have parts where it is found before it from where it is found after. -/
theorem cut?_barrier {x : α} (hmark : mark ≠ []) (hx : x ∉ mark) (ys xs : List α) :
    cut? mark (xs ++ x :: ys)
      = ((cut? mark xs).map fun (before, after) => (before, after ++ x :: ys)).or
        ((cut? mark ys).map fun (before, after) => (xs ++ x :: before, after)) := by
  induction xs with
  | nil =>
    have hmiss : ¬mark <+: x :: ys := fun h =>
      hmark (List.prefix_nil.mp ((prefix_append_cons_iff hx []).mp h))
    rw [List.nil_append, cut?_miss hmiss]
    rfl
  | cons z zs ih =>
    by_cases hstarts : mark <+: z :: zs
    · obtain ⟨rest, hrest⟩ := hstarts
      rw [← hrest, List.append_assoc, cut?_hit hmark, cut?_hit hmark]
      rfl
    · have hlonger : ¬mark <+: z :: (zs ++ x :: ys) := fun h =>
        hstarts ((prefix_append_cons_iff hx (z :: zs)).mp h)
      rw [List.cons_append, cut?_miss hlonger, cut?_miss hstarts, ih]
      cases cut? mark zs <;> cases cut? mark ys <;> rfl

/-- A stretch that gives way to one no longer than itself does not make the list longer. -/
theorem length_replace_exactly_le {value : List α} (hmark : mark ≠ [])
    (hlen : value.length ≤ mark.length) (xs : List α) :
    (replace (exactly mark value) xs).length ≤ xs.length := by
  induction xs using stretch_induction hmark with
  | nil => exact Nat.le_refl 0
  | hit rest ih =>
    rw [replace_exactly_hit hmark, List.length_append, List.length_append]
    omega
  | miss x xs h ih =>
    rw [replace_exactly_miss h, List.length_cons, List.length_cons]
    omega

/-! ### A stretch that gives way to one element -/

variable {v : α} {part : List α}

omit [BEq α] [LawfulBEq α] in
theorem not_prefix_cons_of_not_mem (hv : v ∉ part) (hne : part ≠ []) (ys : List α) :
    ¬part <+: v :: ys := by
  cases part with
  | nil => exact absurd rfl hne
  | cons a part =>
    intro h
    rw [List.cons_prefix_cons] at h
    exact hv (by simp [h.1])

/-- What is there without the new element was there before, at the start … -/
theorem prefix_of_prefix_replace (hmark : mark ≠ []) (hv : v ∉ part)
    (h : part <+: replace (exactly mark [v]) xs) : part <+: xs := by
  induction part generalizing xs with
  | nil => exact List.nil_prefix
  | cons a part ih =>
    cases xs with
    | nil => exact h
    | cons x xs =>
      by_cases hstarts : mark <+: x :: xs
      · obtain ⟨rest, hrest⟩ := hstarts
        rw [← hrest, replace_exactly_hit hmark] at h
        exact absurd h (not_prefix_cons_of_not_mem hv (by simp) _)
      · rw [replace_exactly_miss hstarts, List.cons_prefix_cons] at h
        rw [List.mem_cons, not_or] at hv
        exact List.cons_prefix_cons.mpr ⟨h.1, ih hv.2 h.2⟩

/-- … and anywhere. -/
theorem infix_of_infix_replace (hmark : mark ≠ []) (hv : v ∉ part) (hne : part ≠ [])
    (h : part <:+: replace (exactly mark [v]) xs) : part <:+: xs := by
  induction xs using stretch_induction hmark with
  | nil => exact h
  | hit rest ih =>
    rw [replace_exactly_hit hmark, List.singleton_append, List.infix_cons_iff] at h
    rcases h with h | h
    · exact absurd h (not_prefix_cons_of_not_mem hv hne _)
    · exact (ih h).trans (List.suffix_append mark rest).isInfix
  | miss x xs hstarts ih =>
    have hmiss : replace (exactly mark [v]) (x :: xs) = x :: replace (exactly mark [v]) xs :=
      replace_exactly_miss hstarts
    rw [hmiss, List.infix_cons_iff, ← hmiss] at h
    rcases h with h | h
    · exact (prefix_of_prefix_replace hmark hv h).isInfix
    · exact (ih h).trans (List.suffix_cons x xs).isInfix

/-- No stretch is left to replace. -/
theorem not_infix_replace (hmark : mark ≠ []) (hv : v ∉ mark) (xs : List α) :
    ¬mark <:+: replace (exactly mark [v]) xs := by
  induction xs using stretch_induction hmark with
  | nil => exact fun h => hmark (List.infix_nil.mp h)
  | hit rest ih =>
    rw [replace_exactly_hit hmark, List.singleton_append, List.infix_cons_iff, not_or]
    exact ⟨not_prefix_cons_of_not_mem hv hmark _, ih⟩
  | miss x xs hstarts ih =>
    have hmiss : replace (exactly mark [v]) (x :: xs) = x :: replace (exactly mark [v]) xs :=
      replace_exactly_miss hstarts
    intro h
    rw [hmiss, List.infix_cons_iff, ← hmiss] at h
    rcases h with h | h
    · exact hstarts (prefix_of_prefix_replace hmark hv h)
    · exact ih h

theorem replace_exactly_eq_self {value : List α} (h : ¬mark <:+: xs) :
    replace (exactly mark value) xs = xs := by
  induction xs with
  | nil => rfl
  | cons x xs ih =>
    rw [List.infix_cons_iff, not_or] at h
    rw [replace_exactly_miss h.1, ih h.2]

theorem mem_replace_exactly_iff {x : α} (hmark : mark ≠ []) (hx : x ∉ mark) (hv : v ≠ x) :
    x ∈ replace (exactly mark [v]) xs ↔ x ∈ xs := by
  constructor
  · intro h
    obtain ⟨us, vs, hsplit⟩ := List.append_of_mem h
    have hpart : [x] <:+: replace (exactly mark [v]) xs := ⟨us, vs, by simp [hsplit]⟩
    exact (infix_of_infix_replace hmark (by simpa using hv) (List.cons_ne_nil x []) hpart).subset
      List.mem_cons_self
  · intro h
    obtain ⟨us, vs, rfl⟩ := List.append_of_mem h
    rw [replace_exactly_barrier hmark hx]
    simp

end Fixed

/-! ## What replacing conserves -/

variable {γ : Type w} {m : Recogniser α (List α)}

/-- What a recogniser reads weighs as much as what it covers. -/
def Conserves (weight : α → List γ) (m : Recogniser α (List α)) : Prop :=
  ∀ ⦃atStart xs hit⦄, m atStart xs = some hit →
    hit.value.flatMap weight = (xs.take (hit.more + 1)).flatMap weight

theorem Conserves.replace {weight : α → List γ} (hm : Conserves weight m) (xs : List α) :
    (replace m xs).flatMap weight = xs.flatMap weight := by
  have hscan : ∀ (xs : List α) (b : Bool) (skip : Nat),
      ((scanFrom m b skip xs).flatMap (Sum.elim (fun x => [x]) id)).flatMap weight
        = (xs.drop skip).flatMap weight := by
    intro xs
    induction xs with
    | nil => simp [scanFrom]
    | cons x xs ih =>
      intro b skip
      cases skip with
      | succ skip => rw [scanFrom, ih, List.drop_succ_cons]
      | zero =>
        rw [scanFrom]
        split
        · rename_i hit hhit
          rw [List.flatMap_cons, List.flatMap_append, ih, Sum.elim_inr, id, hm hhit,
            List.take_succ_cons, ← List.flatMap_append, List.cons_append, List.take_append_drop,
            List.drop_zero]
        · rw [List.flatMap_cons, List.flatMap_append, ih]
          simp
  exact hscan xs true 0

/-- A fixed stretch gives way to one of the same weight. -/
theorem conserves_exactly [BEq α] [LawfulBEq α] {weight : α → List γ} {mark value : List α}
    (h : value.flatMap weight = mark.flatMap weight) : Conserves weight (exactly mark value) := by
  intro atStart xs hit hm
  unfold exactly at hm
  split at hm
  · cases hm
  · rename_i x more
    split at hm
    · rename_i hstarts
      cases hm
      obtain ⟨rest, rfl⟩ := List.isPrefixOf_iff_prefix.mp hstarts
      have htake : (x :: more ++ rest).take (more.length + 1) = x :: more := by simp
      rw [htake]
      exact h
    · cases hm

/-- All that is left after replacing satisfies `P` if all that is read does, and so does every
element at which nothing is recognised. -/
theorem forall_mem_replace {P : α → Prop}
    (hit : ∀ {b xs hit}, m b xs = some hit → ∀ x ∈ hit.value, P x)
    (miss : ∀ {b x xs}, m b (x :: xs) = none → P x) (xs : List α) : ∀ x ∈ replace m xs, P x := by
  have hscan : ∀ (xs : List α) (b : Bool) (skip : Nat),
      ∀ y ∈ (scanFrom m b skip xs).flatMap (Sum.elim (fun x => [x]) id), P y := by
    intro xs
    induction xs with
    | nil => simp [scanFrom]
    | cons x xs ih =>
      intro b skip y hy
      cases skip with
      | succ skip =>
        rw [scanFrom] at hy
        exact ih false skip y hy
      | zero =>
        rw [scanFrom] at hy
        split at hy
        · rename_i hhit
          rcases List.mem_append.mp hy with hy | hy
          · exact hit hhit y hy
          · exact ih _ _ y hy
        · rename_i hmiss
          rcases List.mem_cons.mp hy with rfl | hy
          · exact miss hmiss
          · exact ih _ _ y hy
  exact hscan xs true 0

end MarkdownPreview.Text
