import MarkdownPreview.Proofs.Text.Caseless
import MarkdownPreview.Sample.Label

/-!
# Which labels a sample gets, and which lines it loses

Directives are taken out line by line, and what happens to a line depends on which labels are known
by then. Told for the whole sample, without a state: the labels are those of the first directive of
each kind; up to the line with which both are known all directives are taken out, those that come
too late for their kind as well; every other line stays (`extract_firsts`).
-/

set_option autoImplicit false

namespace MarkdownPreview.Sample

open Text

variable {labels : Labels} {line cs rest : List Char} {ls : List (List Char)} {label : String}
  {keyword : List Char} {mark : Char}

/-! ## How a directive is written -/

/-- A line `[keyword label]`, with the keyword in any case, where the label is not empty and has no
line feed. -/
def Gives (keyword : List Char) (line : List Char) (label : String) : Prop :=
  ∃ word, word.map foldCase = keyword ∧ line = '[' :: (word ++ ' ' :: (label.toList ++ [']']))
    ∧ label.toList ≠ [] ∧ '\n' ∉ label.toList

theorem beforeFinal?_eq_some_iff : beforeFinal? mark cs = some label
    ↔ cs = label.toList ++ [mark] ∧ label.toList ≠ [] ∧ '\n' ∉ label.toList := by
  constructor
  · intro h
    unfold beforeFinal? at h
    split at h
    · rename_i c body hreverse
      split at h
      · rename_i hbody
        obtain ⟨rfl, hne, hline⟩ := hbody
        cases h
        rw [String.toList_ofList, List.mem_reverse, ne_eq, List.reverse_eq_nil_iff]
        exact ⟨by simpa using congrArg List.reverse hreverse, hne, hline⟩
      · cases h
    · cases h
  · rintro ⟨rfl, hne, hline⟩
    rw [beforeFinal?, List.reverse_append, List.reverse_singleton, List.singleton_append]
    dsimp only
    rw [if_pos ⟨rfl, by simpa using hne, by simpa using hline⟩, List.reverse_reverse,
      String.ofList_toList]

theorem dropKeyword?_eq_some_iff : dropCaseless? ('[' :: (keyword ++ [' '])) line = some rest
    ↔ ∃ word, word.map foldCase = keyword ∧ line = '[' :: (word ++ ' ' :: rest) := by
  rw [dropCaseless?_eq_some_iff]
  constructor
  · rintro ⟨start, hstart, rfl⟩
    obtain ⟨bracket, _, rfl, hbracket, hbehind⟩ := List.map_eq_cons_iff.mp hstart
    obtain ⟨word, _, rfl, hword, hlast⟩ := List.map_eq_append_iff.mp hbehind
    obtain ⟨space, rfl, hspace⟩ := List.map_eq_singleton_iff.mp hlast
    rw [eq_of_foldCase_eq (by decide) hbracket, eq_of_foldCase_eq (by decide) hspace]
    exact ⟨word, hword, by simp⟩
  · rintro ⟨word, rfl, rfl⟩
    have hsigns : foldCase '[' = '[' ∧ foldCase ' ' = ' ' := by decide
    exact ⟨'[' :: (word ++ [' ']), by simp [hsigns], by simp⟩

/-- The label that a line gives with a keyword. -/
def labelIn? (keyword line : List Char) : Option String :=
  (dropCaseless? ('[' :: (keyword ++ [' '])) line).bind (beforeFinal? ']')

theorem labelIn?_eq_some_iff : labelIn? keyword line = some label ↔ Gives keyword line label := by
  simp only [labelIn?, Option.bind_eq_some_iff, dropKeyword?_eq_some_iff, beforeFinal?_eq_some_iff]
  constructor
  · rintro ⟨_, ⟨word, hword, rfl⟩, rfl, hlabel⟩
    exact ⟨word, hword, rfl, hlabel⟩
  · rintro ⟨word, hword, rfl, hlabel⟩
    exact ⟨_, ⟨word, hword, rfl⟩, rfl, hlabel⟩

/-- The two keywords start with different letters. -/
theorem dropSecondary?_eq_none
    (h : dropCaseless? ('[' :: ("label".toList ++ [' '])) line = some rest) :
    dropCaseless? ('[' :: ("secondary_label".toList ++ [' '])) line = none := by
  rw [Option.eq_none_iff_forall_ne_some]
  intro more hmore
  obtain ⟨word, hword, rfl⟩ := dropKeyword?_eq_some_iff.mp h
  obtain ⟨word', hword', hline⟩ := dropKeyword?_eq_some_iff.mp hmore
  obtain ⟨c, _, rfl, hc, -⟩ := List.map_eq_cons_iff.mp hword
  obtain ⟨c', _, rfl, hc', -⟩ := List.map_eq_cons_iff.mp hword'
  simp only [List.cons_append, List.cons.injEq] at hline
  rw [← hline.2.1, hc] at hc'
  exact absurd hc' (by decide)

/-! ## The labels that a line gives -/

def Directive.primary? : Directive → Option String
  | .primary label => some label
  | .secondary _ => none

def Directive.secondary? : Directive → Option String
  | .primary _ => none
  | .secondary label => some label

/-- The label that a line gives a sample above it. -/
def primaryOf? (line : List Char) : Option String :=
  (Directive.ofLine? line).bind Directive.primary?

/-- The label that a line gives a sample inside it. -/
def secondaryOf? (line : List Char) : Option String :=
  (Directive.ofLine? line).bind Directive.secondary?

/-- Whether a line gives no label. -/
def isPlain (line : List Char) : Bool := (primaryOf? line).isNone && (secondaryOf? line).isNone

theorem ofLine?_eq (line : List Char) : Directive.ofLine? line =
    match dropCaseless? ('[' :: ("label".toList ++ [' '])) line,
      dropCaseless? ('[' :: ("secondary_label".toList ++ [' '])) line with
    | some rest, _ => (beforeFinal? ']' rest).map .primary
    | none, some rest => (beforeFinal? ']' rest).map .secondary
    | none, none => none := rfl

theorem primaryOf?_eq (line : List Char) : primaryOf? line = labelIn? "label".toList line := by
  rw [primaryOf?, ofLine?_eq, labelIn?]
  cases dropCaseless? ('[' :: ("label".toList ++ [' '])) line with
  | some rest => cases hlabel : beforeFinal? ']' rest <;> simp [hlabel, Directive.primary?]
  | none =>
    cases dropCaseless? ('[' :: ("secondary_label".toList ++ [' '])) line with
    | some rest => cases hlabel : beforeFinal? ']' rest <;> simp [hlabel, Directive.primary?]
    | none => rfl

theorem secondaryOf?_eq (line : List Char) :
    secondaryOf? line = labelIn? "secondary_label".toList line := by
  rw [secondaryOf?, ofLine?_eq, labelIn?]
  cases hprimary : dropCaseless? ('[' :: ("label".toList ++ [' '])) line with
  | some rest =>
    rw [dropSecondary?_eq_none hprimary]
    cases hlabel : beforeFinal? ']' rest <;> simp [hlabel, Directive.secondary?]
  | none =>
    cases dropCaseless? ('[' :: ("secondary_label".toList ++ [' '])) line with
    | some rest => cases hlabel : beforeFinal? ']' rest <;> simp [hlabel, Directive.secondary?]
    | none => rfl

/-! ## One line -/

namespace Labels

/-- The labels after a line, while one is not known. -/
def after (labels : Labels) (line : List Char) : Labels :=
  match Directive.ofLine? line with
  | some directive => labels.add directive
  | none => labels

theorem primary?_after (labels : Labels) (line : List Char) :
    (labels.after line).primary? = labels.primary?.or (primaryOf? line) := by
  unfold after primaryOf?
  cases Directive.ofLine? line with
  | none => exact Option.or_none.symm
  | some directive => cases directive <;> simp [add, Directive.primary?]

theorem secondary?_after (labels : Labels) (line : List Char) :
    (labels.after line).secondary? = labels.secondary?.or (secondaryOf? line) := by
  unfold after secondaryOf?
  cases Directive.ofLine? line with
  | none => exact Option.or_none.symm
  | some directive => cases directive <;> simp [add, Directive.secondary?]

theorem extract_cons (h : labels.isFull = false) (line : List Char) (rest : List (List Char)) :
    labels.extract (line :: rest) =
      (((labels.after line).extract rest).1,
        [line].filter isPlain ++ ((labels.after line).extract rest).2) := by
  rw [extract, h, after, List.filter_singleton, isPlain, primaryOf?, secondaryOf?]
  cases Directive.ofLine? line with
  | none => rfl
  | some directive => cases directive <;> rfl

/-- When both labels are known, nothing more happens. -/
theorem extract_of_isFull (h : labels.isFull = true) (ls : List (List Char)) :
    labels.extract ls = (labels, ls) := by
  induction ls with
  | nil => rfl
  | cons line rest ih => rw [extract, if_pos h, ih]

end Labels

/-! ## All lines -/

/-- How many lines are read until a label is known. -/
def wait (known? : Option String) (given? : List Char → Option String) (ls : List (List Char)) :
    Nat :=
  if known?.isSome then 0 else ls.findIdx (fun line => (given? line).isSome) + 1

theorem wait_cons (known? : Option String) (given? : List Char → Option String) (line : List Char)
    (rest : List (List Char)) : wait known? given? (line :: rest) =
      if known?.isSome then 0 else wait (known?.or (given? line)) given? rest + 1 := by
  unfold wait
  cases known? <;> cases hgiven : given? line <;> simp [List.findIdx_cons, hgiven]

/-- How many lines are read until both labels are known. -/
def Labels.pending (labels : Labels) (ls : List (List Char)) : Nat :=
  max (wait labels.primary? primaryOf? ls) (wait labels.secondary? secondaryOf? ls)

theorem Labels.pending_cons (h : labels.isFull = false) (line : List Char)
    (rest : List (List Char)) :
    labels.pending (line :: rest) = (labels.after line).pending rest + 1 := by
  rw [pending, pending, wait_cons, wait_cons, primary?_after, secondary?_after]
  obtain ⟨primary?, secondary?⟩ := labels
  cases primary? <;> cases secondary? <;> simp_all [isFull, wait, Nat.succ_max_succ]

theorem Labels.extract_eq (labels : Labels) (ls : List (List Char)) : labels.extract ls =
    (⟨labels.primary?.or (ls.findSome? primaryOf?),
        labels.secondary?.or (ls.findSome? secondaryOf?)⟩,
      (ls.take (labels.pending ls)).filter isPlain ++ ls.drop (labels.pending ls)) := by
  induction ls generalizing labels with
  | nil => simp [extract]
  | cons line rest ih =>
    cases hfull : labels.isFull with
    | true =>
      obtain ⟨primary?, secondary?⟩ := labels
      rw [isFull, Bool.and_eq_true, Option.isSome_iff_exists, Option.isSome_iff_exists] at hfull
      obtain ⟨⟨primary, rfl⟩, secondary, rfl⟩ := hfull
      exact extract_of_isFull rfl (line :: rest)
    | false =>
      have hfirst (given? : List Char → Option String) :
          (line :: rest).findSome? given? = (given? line).or (rest.findSome? given?) := by
        cases hgiven : given? line <;> simp [hgiven]
      have hplain (read : List (List Char)) :
          (line :: read).filter isPlain = [line].filter isPlain ++ read.filter isPlain :=
        List.filter_append [line] read
      rw [extract_cons hfull, ih, pending_cons hfull, primary?_after, secondary?_after, hfirst,
        hfirst, Option.or_assoc, Option.or_assoc, List.take_succ_cons, List.drop_succ_cons,
        hplain (rest.take _), List.append_assoc]

/-- The place of the line with which both labels are known, or the end if one stays unknown. -/
def knownAt (ls : List (List Char)) : Nat :=
  max (ls.findIdx fun line => (primaryOf? line).isSome)
    (ls.findIdx fun line => (secondaryOf? line).isSome)

theorem pending_eq_knownAt (ls : List (List Char)) : Labels.pending {} ls = knownAt ls + 1 :=
  Nat.succ_max_succ _ _

/-- **The labels of a sample are those of the first directive of each kind**, and what it loses are
the directives up to the line with which both are known. -/
theorem extract_firsts (ls : List (List Char)) :
    Labels.extract {} ls =
        (⟨ls.findSome? primaryOf?, ls.findSome? secondaryOf?⟩,
          (ls.take (knownAt ls + 1)).filter isPlain ++ ls.drop (knownAt ls + 1))
      ∧ ∀ line label, (primaryOf? line = some label ↔ Gives "label".toList line label)
        ∧ (secondaryOf? line = some label ↔ Gives "secondary_label".toList line label) := by
  refine ⟨?_, fun line label => ⟨?_, ?_⟩⟩
  · rw [Labels.extract_eq, pending_eq_knownAt]
    rfl
  · rw [primaryOf?_eq, labelIn?_eq_some_iff]
  · rw [secondaryOf?_eq, labelIn?_eq_some_iff]

end MarkdownPreview.Sample
