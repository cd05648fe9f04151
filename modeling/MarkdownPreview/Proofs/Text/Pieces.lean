import MarkdownPreview.Proofs.Text.Scan

/-!
# Where a scan cuts

A scan cuts a list at its leftmost match, goes on behind it, and leaves the rest as it is if nothing
is recognised any more. `Cuts` says just that, and the pieces of a list are the only ones that it
can be cut into (`Steady.cuts_iff`). So what holds of pieces is shown along `Cuts`: put together
again they are the list (`Cuts.spelled`), and nothing can be recognised within what lies between the
matches (`Cuts.misses`).
-/

set_option autoImplicit false

namespace MarkdownPreview.Text

universe u v

variable {α : Type u} {β : Type v} {m : Recogniser α β} {x : α} {front rest xs ys : List α}
  {p q : Pieces α β}

/-- Nothing is recognised in `front`, where `rest` follows it. -/
def Misses (m : Recogniser α β) (front rest : List α) : Prop :=
  ∀ s, s <:+ front → s ≠ [] → m true (s ++ rest) = none

theorem Misses.nil (rest : List α) : Misses m [] rest :=
  fun _ hs hne => absurd (List.suffix_nil.mp hs) hne

theorem misses_cons : Misses m (x :: front) rest
    ↔ m true (x :: (front ++ rest)) = none ∧ Misses m front rest := by
  constructor
  · intro h
    exact ⟨h _ List.suffix_rfl (List.cons_ne_nil x front),
      fun s hs hne => h s (hs.trans (List.suffix_cons x front)) hne⟩
  · rintro ⟨hx, h⟩ s hs hne
    rcases List.suffix_cons_iff.mp hs with rfl | hs
    · exact hx
    · exact h s hs hne

/-- Nothing is recognised in what lacks the element that every match starts with. -/
theorem Misses.of_not_mem (hm : ∀ y ys, y ≠ x → m true (y :: ys) = none) (h : x ∉ front)
    (rest : List α) : Misses m front rest := by
  intro s hs hne
  obtain ⟨y, ys, rfl⟩ := List.exists_cons_of_ne_nil hne
  apply hm
  rintro rfl
  exact h (hs.subset List.mem_cons_self)

theorem occurs_eq_false_iff (hm : Steady m) : occurs m xs = false ↔ Misses m xs [] := by
  induction xs with
  | nil => exact ⟨fun _ => Misses.nil [], fun _ => rfl⟩
  | cons x xs ih =>
    rw [misses_cons, List.append_nil]
    cases h : m true (x :: xs) with
    | none =>
      rw [← ih, occurs, hm.scan_miss h]
      simp [occurs]
    | some hit =>
      rw [occurs, hm.scan_hit h]
      simp

/-! ## The cuts -/

/-- How a list is cut into pieces: at the leftmost match, then behind it, until there is none. -/
inductive Cuts (m : Recogniser α β) : List α → Pieces α β → Prop
  | last {xs : List α} (h : Misses m xs []) : Cuts m xs ⟨xs, []⟩
  | next {front xs : List α} {x : α} {hit : Hit β} {p : Pieces α β}
      (h : Misses m front (x :: xs)) (hhit : m true (x :: xs) = some hit)
      (hp : Cuts m (xs.drop hit.more) p) :
      Cuts m (front ++ x :: xs) ⟨front, (hit.value, p.first) :: p.rest⟩

/-- The first piece starts earlier if the list does. -/
theorem Cuts.cons (h : m true (x :: xs) = none) (hp : Cuts m xs p) :
    Cuts m (x :: xs) ⟨x :: p.first, p.rest⟩ := by
  cases hp with
  | last hmiss =>
    apply Cuts.last
    rw [misses_cons, List.append_nil]
    exact ⟨h, hmiss⟩
  | next hmiss hhit hp => exact .next (misses_cons.mpr ⟨h, hmiss⟩) hhit hp

theorem Steady.cuts (hm : Steady m) (xs : List α) : Cuts m xs (pieces m xs) := by
  induction hlen : xs.length using Nat.strongRecOn generalizing xs with
  | ind n ih =>
    subst hlen
    cases xs with
    | nil => exact .last (Misses.nil [])
    | cons x xs =>
      cases h : m true (x :: xs) with
      | none =>
        rw [hm.pieces_cons h]
        exact .cons h (ih _ (Nat.lt_succ_self _) xs rfl)
      | some hit =>
        have hlt : (xs.drop hit.more).length < (x :: xs).length := by
          rw [List.length_drop, List.length_cons]
          omega
        rw [hm.pieces_hit h rfl]
        show Cuts m ([] ++ x :: xs) _
        exact .next (Misses.nil _) h (ih _ hlt _ rfl)

/-- **A list can be cut in one way only.** -/
theorem Steady.cuts_iff (hm : Steady m) : Cuts m xs p ↔ p = pieces m xs := by
  constructor
  · intro h
    induction h with
    | last hmiss =>
      have hpieces := hm.pieces_miss hmiss
      simpa [pieces, scan, scanFrom, Pieces.ofScan] using hpieces.symm
    | next hmiss hhit _ ih => rw [hm.pieces_miss hmiss, hm.pieces_hit hhit rfl, ← ih, List.append_nil]
  · rintro rfl
    exact hm.cuts xs

/-! ## What holds of pieces -/

/-- A match covers what is written for the value that was read. -/
def Spells (spell : β → List α) (m : Recogniser α β) : Prop :=
  ∀ ⦃x xs hit⦄, m true (x :: xs) = some hit → x :: xs.take hit.more = spell hit.value

/-- **The pieces put together are the list.** -/
theorem Cuts.spelled {spell : β → List α} (hs : Spells spell m) (h : Cuts m xs p) :
    p.first ++ p.rest.flatMap (fun run => spell run.1 ++ run.2) = xs := by
  induction h with
  | last _ => simp
  | @next front xs x hit p _ hhit _ ih =>
    have hcovered : spell hit.value ++ xs.drop hit.more = x :: xs := by
      rw [← hs hhit, List.cons_append, List.take_append_drop]
    rw [List.flatMap_cons, List.append_assoc, ih, hcovered]

/-- What is recognised does not hang on what follows it. -/
def Lasts (m : Recogniser α β) : Prop :=
  ∀ ⦃xs hit⦄ (ys : List α), m true xs = some hit → m true (xs ++ ys) = some hit

/-- Where nothing is recognised, it is not with less behind it either. -/
theorem Misses.shorten (hl : Lasts m) (h : Misses m front rest) : Misses m front [] := by
  intro s hs hne
  rw [List.append_nil, Option.eq_none_iff_forall_ne_some]
  intro hit hhit
  have hmiss := h s hs hne
  rw [hl rest hhit] at hmiss
  cases hmiss

/-- **Between the matches there is none.** -/
theorem Cuts.misses (hl : Lasts m) (h : Cuts m xs p) :
    Misses m p.first [] ∧ ∀ run ∈ p.rest, Misses m run.2 [] := by
  induction h with
  | last hmiss => exact ⟨hmiss, List.forall_mem_nil _⟩
  | next hmiss _ _ ih => exact ⟨hmiss.shorten hl, List.forall_mem_cons.mpr ih⟩

/-- What is read satisfies what every match does. -/
theorem Cuts.forall_mem {P : β → Prop} (hP : ∀ ⦃xs hit⦄, m true xs = some hit → P hit.value)
    (h : Cuts m xs p) : ∀ run ∈ p.rest, P run.1 := by
  induction h with
  | last _ => exact List.forall_mem_nil _
  | next _ hhit _ ih => exact List.forall_mem_cons.mpr ⟨hP hhit, ih⟩

/-! ## The first place of a stretch -/

section Fixed

variable [BEq α] [LawfulBEq α] {mark before after : List α}

/-- Before the first place of a stretch there is none. -/
theorem not_infix_of_cut?_eq_some (hmark : mark ≠ []) (h : cut? mark xs = some (before, after)) :
    ¬mark <:+: before := by
  induction xs generalizing before with
  | nil => cases h
  | cons x xs ih =>
    by_cases hstarts : mark <+: x :: xs
    · obtain ⟨rest, hrest⟩ := hstarts
      rw [← hrest, cut?_hit hmark] at h
      cases h
      exact fun hin => hmark (List.infix_nil.mp hin)
    · have hxs : x :: xs = before ++ (mark ++ after) := append_of_cut?_eq_some h
      rw [cut?_miss hstarts] at h
      obtain ⟨⟨more, after⟩, hcut, heq⟩ := Option.map_eq_some_iff.mp h
      cases heq
      rw [List.infix_cons_iff, not_or]
      refine ⟨fun hin => hstarts ?_, ih hcut⟩
      rw [hxs]
      exact hin.trans (List.prefix_append _ _)

/-- A stretch is found no later than where it is known to be. -/
theorem exists_cut?_eq_some (hmark : mark ≠ []) (front rest : List α) :
    ∃ before after, cut? mark (front ++ (mark ++ rest)) = some (before, after)
      ∧ before <+: front := by
  induction front with
  | nil => exact ⟨[], rest, cut?_hit hmark rest, List.nil_prefix⟩
  | cons x front ih =>
    by_cases hstarts : mark <+: x :: (front ++ (mark ++ rest))
    · obtain ⟨after, hafter⟩ := hstarts
      refine ⟨[], after, ?_, List.nil_prefix⟩
      rw [List.cons_append, ← hafter, cut?_hit hmark]
    · obtain ⟨before, after, hcut, hbefore⟩ := ih
      refine ⟨x :: before, after, ?_, List.cons_prefix_cons.mpr ⟨rfl, hbefore⟩⟩
      rw [List.cons_append, cut?_miss hstarts, hcut]
      rfl

theorem cut?_eq_none_iff (hmark : mark ≠ []) : cut? mark xs = none ↔ ¬mark <:+: xs := by
  constructor
  · rintro h ⟨front, rest, rfl⟩
    obtain ⟨before, after, hcut, -⟩ := exists_cut?_eq_some hmark front rest
    rw [List.append_assoc, hcut] at h
    cases h
  · intro h
    rw [Option.eq_none_iff_forall_ne_some]
    rintro ⟨before, after⟩ hcut
    exact h ⟨before, after, by rw [append_of_cut?_eq_some hcut, List.append_assoc]⟩

/-- What follows a list does not change where a stretch is first in it. -/
theorem cut?_append_right (hmark : mark ≠ []) (h : cut? mark xs = some (before, after))
    (ys : List α) : cut? mark (xs ++ ys) = some (before, after ++ ys) := by
  induction xs generalizing before with
  | nil => cases h
  | cons x xs ih =>
    by_cases hstarts : mark <+: x :: xs
    · obtain ⟨rest, hrest⟩ := hstarts
      rw [← hrest, cut?_hit hmark] at h
      cases h
      rw [← hrest, List.append_assoc, cut?_hit hmark]
    · rw [cut?_miss hstarts] at h
      obtain ⟨⟨before, after⟩, hcut, heq⟩ := Option.map_eq_some_iff.mp h
      cases heq
      -- The stretch is in `xs`, so it is not too long to be seen at `x`.
      have hlen : mark.length ≤ xs.length := by
        rw [append_of_cut?_eq_some hcut, List.length_append, List.length_append]
        omega
      have hlonger : ¬mark <+: x :: (xs ++ ys) := fun hprefix =>
        hstarts (List.prefix_of_prefix_length_le hprefix (List.prefix_append (x :: xs) ys)
          (Nat.le_succ_of_le hlen))
      rw [List.cons_append, cut?_miss hlonger, ih hcut]
      rfl

/-- A mark has its first element nowhere else. Then the first one in a list with a mark behind it is the
first one in the list, or else the mark behind it. -/
theorem cut?_append_mark {part : List α} (hx : x ∉ part) (xs ys : List α) :
    (cut? (x :: part) (xs ++ (x :: part ++ ys))).map Prod.fst
      = some (((cut? (x :: part) xs).map Prod.fst).getD xs) := by
  cases hcut : cut? (x :: part) xs with
  | some pair =>
    rw [cut?_append_right (List.cons_ne_nil x part) hcut, Option.map_some, Option.map_some,
      Option.getD_some]
  | none =>
    have hnone := (cut?_eq_none_iff (List.cons_ne_nil x part)).mp hcut
    have hmiss : ∀ s, s <:+ xs → s ≠ [] → ¬x :: part <+: s ++ (x :: part ++ ys) := by
      intro s hs hne hstarts
      obtain ⟨y, s, rfl⟩ := List.exists_cons_of_ne_nil hne
      rw [List.cons_append, List.cons_prefix_cons, List.cons_append, prefix_append_cons_iff hx]
        at hstarts
      exact hnone ((List.cons_prefix_cons.mpr hstarts).isInfix.trans hs.isInfix)
    rw [cut?_first (List.cons_ne_nil x part) hmiss]
    rfl

end Fixed

end MarkdownPreview.Text
