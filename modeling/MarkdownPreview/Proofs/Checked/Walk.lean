import MarkdownPreview.Proofs.Walk.Recursion

/-!
# Walks whose visits may fail

A rule goes through a document by a walk, and looks for its places in the level it is in. Here a
visit may fail, and a walk has a result only if it comes to an end and no visit has failed (`walk?`).

What a rule makes of a document is written down level by level, while a walk is down in the children
of one token before it visits the next. The tokens of a level that have been visited thus differ from
what the visits have left only in that their children have been walked. `Sweep` is a run of visits
through one level with such tokens behind it; if every level has one, the walk comes to its end
(`walk?_of_sweeps`).
-/

set_option autoImplicit false

namespace MarkdownPreview

/-- The token with something done to the level below it, if there is one. -/
def Token.under (f : List Token → List Token) (t : Token) : Token :=
  { t with children := t.children.map f }

theorem Token.under_of_none {f : List Token → List Token} {t : Token} (h : t.children = none) :
    t.under f = t := by
  obtain ⟨kind, tag, nesting, attrs, content, info, markup, children, block, hidden⟩ := t
  subst h
  rfl

namespace Checked

/-- A visit that may fail. -/
abbrev Visit? : Type := Cursor Token → Option (Cursor Token)

/-- A visitor whose state tells whether all visits have been well so far. -/
def watched (visit? : Visit?) : Visitor Bool := fun well c =>
  match visit? c with
  | some c => (well, c)
  | none => (false, c)

/-- Walks a tree from its first token to its last. There is a result only if the walk comes to an end
within the bound and no visit has failed. -/
def walk? (visit? : Visit?) (steps : Nat) (ts : List Token) : Option (List Token) :=
  match walk .forward (watched visit?) steps true ts with
  | some (true, ts) => some ts
  | _ => none

/-- A run of visits through the tokens `todo`, behind which the level is `out`. None of them fails.
The level is written without what a walk does to the children of the tokens visited, which is
`inner`. A visit may change which tokens are to come, but not to deeper ones, and may take out tokens
visited before. -/
inductive Sweep (visit? : Visit?) (inner : List Token → List Token) :
    (done todo out : List Token) → Prop
  | ended (done : List Token) : Sweep visit? inner done [] done
  | stay {t u : Token} {done done' todo todo' out : List Token}
      (hvisit : visit? { level := done.map (Token.under inner) ++ t :: todo, index := done.length }
        = some { level := done'.map (Token.under inner) ++ u :: todo', index := done'.length })
      (hdepth : levelDepth (u :: todo') ≤ levelDepth (t :: todo))
      (hrest : Sweep visit? inner (done' ++ [u]) todo' out) : Sweep visit? inner done (t :: todo) out
  | gone {t : Token} {done done' todo todo' out : List Token}
      (hvisit : visit? { level := done.map (Token.under inner) ++ t :: todo, index := done.length }
        = some { level := done'.map (Token.under inner) ++ todo', index := done'.length
                 removed := true })
      (hdepth : levelDepth todo' ≤ levelDepth (t :: todo))
      (hrest : Sweep visit? inner done' todo' out) : Sweep visit? inner done (t :: todo) out

variable {visit? : Visit?} {inner : List Token → List Token}

/-! ## One round of the loop -/

section

variable {steps : Nat} {level : List Token} {place place' : Nat} {before after : List Token}

theorem watched_eq {c c' : Cursor Token} (h : visit? c = some c') (well : Bool) :
    watched visit? well c = (well, c') := by rw [watched, h]

/-- The walk goes down into the token that a visit leaves, and then on behind it. -/
theorem walkFrom_stay {u : Token} (hlt : place < level.length)
    (hvisit : visit? { level, index := place }
      = some { level := before ++ u :: after, index := place' })
    (hplace : before.length = place')
    (hinner : ∀ ts, u.children = some ts →
      walk .forward (watched visit?) steps true ts = some (true, inner ts)) :
    walkFrom .forward (watched visit?) (steps + 1) true (some place) level
      = walkFrom .forward (watched visit?) steps true (some (place' + 1))
          (before ++ u.under inner :: after) := by
  subst hplace
  have hcurrent : ({ level := before ++ u :: after, index := before.length } :
      Cursor Token).current? = some u := Cursor.current?_amid before u after
  rw [walkFrom, if_pos hlt, watched_eq hvisit]
  simp only [hcurrent, Option.bind_some]
  cases hchildren : u.children with
  | none =>
    rw [Token.under_of_none hchildren]
    rfl
  | some ts =>
    have hts := hinner ts hchildren
    rw [walk] at hts
    simp only [hts]
    simp [Cursor.next?, Token.under, hchildren, List.modify_eq_take_cons_drop]

/-- The walk goes on in the gap that a visit leaves. -/
theorem walkFrom_gone (hlt : place < level.length)
    (hvisit : visit? { level, index := place }
      = some { level := before ++ after, index := place', removed := true }) :
    walkFrom .forward (watched visit?) (steps + 1) true (some place) level
      = walkFrom .forward (watched visit?) steps true (some place') (before ++ after) := by
  rw [walkFrom, if_pos hlt, watched_eq hvisit]
  rfl

theorem walkFrom_over (hle : level.length ≤ place) :
    walkFrom .forward (watched visit?) (steps + 1) true (some place) level = some (true, level) := by
  rw [walkFrom, if_neg (by omega)]

end

/-! ## The walk -/

/-- A walk through what a sweep goes through comes to its end, if the walks of all levels below
do. -/
theorem walkFrom_of_sweep {depth : Nat} {done todo out : List Token}
    (hsweep : Sweep visit? inner done todo out) (hdepth : levelDepth todo ≤ depth)
    (hbelow : ∀ ts, levelDepth ts < depth → ∃ n, ∀ steps, n ≤ steps →
      walk .forward (watched visit?) steps true ts = some (true, inner ts)) :
    ∃ n, ∀ steps, n ≤ steps →
      walkFrom .forward (watched visit?) steps true (some done.length)
        (done.map (Token.under inner) ++ todo) = some (true, out.map (Token.under inner)) := by
  induction hsweep with
  | ended done =>
    refine ⟨1, fun steps hsteps => ?_⟩
    obtain ⟨steps, rfl⟩ := Nat.exists_eq_add_of_le' hsteps
    rw [walkFrom_over (by simp), List.append_nil]
  | @stay t u done done' todo todo' out hvisit hle _ ih =>
    have hle' : levelDepth (u :: todo') ≤ depth := Nat.le_trans hle hdepth
    rw [levelDepth] at hle'
    obtain ⟨n, hn⟩ := ih (by omega)
    -- As many steps as the children need, and the rest of the level.
    obtain ⟨m, hm⟩ : ∃ m, ∀ steps, m ≤ steps → ∀ ts, u.children = some ts →
        walk .forward (watched visit?) steps true ts = some (true, inner ts) := by
      cases hchildren : u.children with
      | none =>
        refine ⟨0, fun _ _ us hus => ?_⟩
        cases hus
      | some ts =>
        have hts := Token.depth_eq_of_children hchildren
        obtain ⟨m, hm⟩ := hbelow ts (by omega)
        refine ⟨m, fun steps hsteps us hus => ?_⟩
        cases hus
        exact hm steps hsteps
    refine ⟨max n m + 1, fun steps hsteps => ?_⟩
    obtain ⟨steps, rfl⟩ := Nat.exists_eq_add_of_le' (Nat.le_of_add_left_le hsteps)
    have hrest := hn steps (by omega)
    simp only [List.length_append, List.length_singleton, List.map_append, List.map_cons,
      List.map_nil, List.append_assoc, List.singleton_append] at hrest
    rw [walkFrom_stay (by simp) hvisit (List.length_map _) (hm steps (by omega)), hrest]
  | @gone t done done' todo todo' out hvisit hle _ ih =>
    obtain ⟨n, hn⟩ := ih (Nat.le_trans hle hdepth)
    refine ⟨n + 1, fun steps hsteps => ?_⟩
    obtain ⟨steps, rfl⟩ := Nat.exists_eq_add_of_le' (Nat.le_of_add_left_le hsteps)
    rw [walkFrom_gone (by simp) hvisit, hn steps (by omega)]

/-- **If there is a sweep through every level, no walk fails**, and each comes to its end. The result
is what the sweep leaves, with the same done to the levels below. -/
theorem walk?_of_sweeps
    (h : ∀ ts, ∃ out, Sweep visit? inner [] ts out ∧ inner ts = out.map (Token.under inner))
    (ts : List Token) : ∃ n, ∀ steps, n ≤ steps → walk? visit? steps ts = some (inner ts) := by
  have hwalk (depth : Nat) : ∀ ts, levelDepth ts < depth → ∃ n, ∀ steps, n ≤ steps →
      walk .forward (watched visit?) steps true ts = some (true, inner ts) := by
    induction depth with
    | zero => exact fun _ hlt => absurd hlt (Nat.not_lt_zero _)
    | succ depth ih =>
      intro ts hlt
      obtain ⟨out, hsweep, hout⟩ := h ts
      rw [hout]
      exact walkFrom_of_sweep hsweep (Nat.le_of_lt_succ hlt) ih
  obtain ⟨n, hn⟩ := hwalk (levelDepth ts + 1) ts (Nat.lt_succ_self _)
  refine ⟨n, fun steps hsteps => ?_⟩
  rw [walk?, hn steps hsteps]

end Checked

end MarkdownPreview
