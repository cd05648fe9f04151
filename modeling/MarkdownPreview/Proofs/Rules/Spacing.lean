import MarkdownPreview.Markdown.Block
import MarkdownPreview.Preview.Rule
import MarkdownPreview.Proofs.Checked.Edits

/-!
# Blank lines, told by the tokens that were there before

The rule for blank lines is a walk that puts tokens into the level it goes through: it looks one
token ahead, may put a line break in between, and visits that line break next. What comes of it can
be said without any of this (`IsSpaced`): the tokens of a level stay in their order, what is below
each of them is changed in the same way, and whether a line break stands behind one is told by it
and the next of the tokens that were there before (`breaksAfter`).

Only one function on trees is like that, and it is what every walk of the rule comes to
(`spacing_isSpaced`).
-/

set_option autoImplicit false

namespace MarkdownPreview

universe u v

/-! ## Walks that differ in their state -/

section

variable {σ : Type u} {τ : Type v} {d : Direction} {visit : Visitor σ} {visit' : Visitor τ}

/-- A walk does the same for a visitor with another state, if the one state tells the other. -/
theorem walkFrom_map (g : σ → τ)
    (h : ∀ s c, visit' (g s) c = (g (visit s c).1, (visit s c).2)) (steps : Nat) (s : σ)
    (place? : Option Nat) (ts : List Token) :
    walkFrom d visit' steps (g s) place? ts
      = (walkFrom d visit steps s place? ts).map fun r => (g r.1, r.2) := by
  induction steps generalizing s place? ts with
  | zero => cases place? <;> rfl
  | succ steps ih =>
    cases place? with
    | none => rfl
    | some i =>
      unfold walkFrom
      split
      · simp only [h]
        generalize visit s { level := ts, index := i } = r
        split
        · exact ih ..
        · rename_i us _
          rw [ih]
          cases walkFrom d visit steps r.1 (d.first? us) us with
          | none => rfl
          | some r => exact ih ..
      · cases d with
        | forward => rfl
        | backward => exact ih ..

end

namespace BlankLines

/-! ## The walk of the rule -/

/-- What the rule does on a visit: it puts a line break behind the current token, if it ends a part
and the token behind it does not make a line break unnecessary. -/
def visit : Visitor Unit := fun s c =>
  (s, match c.current? with
    | none => c
    | some t =>
      if !endsPart t.kind then c
      else if (c.peek 1).any fun next => suppresses next.kind then c
      else c.insertAfter Token.newline)

theorem addBlank?_eq_visit (s : Unit) (c : Cursor Token) :
    Checked.addBlank? c = some (visit s c).2 := by
  unfold Checked.addBlank? visit
  simp only [Cursor.insertAfter?_eq]
  cases c.current? with
  | none => rfl
  | some t =>
    dsimp only
    split
    · rfl
    · split <;> rfl

/-- **A walk of the rule comes to its end**, and has put the line breaks into every level then. -/
theorem walk_visit (ts : List Token) :
    ∃ n, ∀ steps, n ≤ steps → walk .forward visit steps () ts = some ((), addAll ts) := by
  obtain ⟨n, hn⟩ := Checked.walk?_addBlanks ts
  refine ⟨n, fun steps hsteps => ?_⟩
  have hmap : walk .forward (Checked.watched Checked.addBlank?) steps true ts
      = (walk .forward visit steps () ts).map fun r => (true, r.2) :=
    walkFrom_map (fun _ => true) (fun s c => Checked.watched_eq (addBlank?_eq_visit s c) true) steps
      () (Direction.forward.first? ts) ts
  have hwalk := hn steps hsteps
  rw [Checked.walk?, hmap] at hwalk
  cases hr : walk .forward visit steps () ts with
  | none =>
    rw [hr] at hwalk
    cases hwalk
  | some r =>
    rw [hr] at hwalk
    exact congrArg some (Prod.ext rfl (Option.some.inj hwalk))

/-! ## The line breaks of a level -/

/-- The kinds of tokens that a line break belongs after. -/
def addAfter : List Kind :=
  [.closing .paragraph, .softbreak, .closing .bulletList, .closing .heading, .closing .blockquote]

/-- The kinds of tokens that make a line break before them unnecessary. -/
def skipBefore : List Kind := [.closing .listItem, .htmlBlock, .fence, .closing .blockquote]

/-- Whether a line break belongs after the token at a place of a level. -/
def breaksAfter (ts : List Token) (i : Nat) : Bool :=
  ts[i]?.any (fun t => addAfter.contains t.kind)
    && !ts[i + 1]?.any (fun next => skipBefore.contains next.kind)

/-- Whether a function puts line breaks into the levels of a tree and changes nothing else: the
tokens that were there before tell where they belong. -/
def IsSpaced (f : List Token → List Token) : Prop :=
  ∀ ts, f ts = ts.zipIdx.flatMap fun (t, i) =>
    t.under f :: if breaksAfter ts i then [Token.newline] else []

theorem endsPart_eq (k : Kind) : endsPart k = addAfter.contains k := by
  cases k with
  | opening e | closing e => cases e <;> rfl
  | _ => rfl

theorem suppresses_eq (k : Kind) : suppresses k = skipBefore.contains k := by
  cases k with
  | opening e | closing e => cases e <;> rfl
  | _ => rfl

theorem breaksAfter_zero (t : Token) (ts : List Token) :
    breaksAfter (t :: ts) 0 = Checked.needsBreak t ts := by
  simp only [breaksAfter, Checked.needsBreak, endsPart_eq, suppresses_eq, List.head?_eq_getElem?]
  rfl

theorem addLevel_eq_flatMap (ts : List Token) : addLevel ts = ts.zipIdx.flatMap fun (t, i) =>
    t :: if breaksAfter ts i then [Token.newline] else [] := by
  induction ts with
  | nil => rfl
  | cons t ts ih =>
    -- The places of the rest are one further on in the whole level.
    have hplaces : (ts.zipIdx 1).flatMap (fun (u, i) =>
          u :: if breaksAfter (t :: ts) i then [Token.newline] else [])
        = ts.zipIdx.flatMap fun (u, i) =>
          u :: if breaksAfter ts i then [Token.newline] else [] := by
      rw [List.zipIdx_succ, List.flatMap_map]
      rfl
    rw [Checked.addLevel_cons, List.zipIdx_cons, List.flatMap_cons, hplaces, ← ih]
    dsimp only
    rw [breaksAfter_zero]
    split <;> rfl

theorem isSpaced_addAll : IsSpaced addAll := by
  intro ts
  rw [addAll, mapLevels, Checked.mapBelow_eq_under, Checked.addLevel_under, addLevel_eq_flatMap,
    List.map_flatMap]
  refine List.flatMap_congr fun p _ => ?_
  dsimp only
  split <;> rfl

/-- There is only one such function. -/
theorem IsSpaced.unique {f g : List Token → List Token} (hf : IsSpaced f) (hg : IsSpaced g) :
    f = g := by
  have hdepth (depth : Nat) : ∀ ts, levelDepth ts < depth → f ts = g ts := by
    induction depth with
    | zero => exact fun _ hlt => absurd hlt (Nat.not_lt_zero _)
    | succ depth ih =>
      intro ts hlt
      have hunder : ∀ t ∈ ts, t.under f = t.under g := by
        intro t ht
        cases hchildren : t.children with
        | none => rw [Token.under_of_none hchildren, Token.under_of_none hchildren]
        | some us =>
          have hle := depth_le_levelDepth ht
          rw [Token.depth_eq_of_children hchildren] at hle
          rw [Token.under, Token.under, hchildren, Option.map_some, Option.map_some,
            ih us (by omega)]
      rw [hf ts, hg ts]
      refine List.flatMap_congr fun p hp => ?_
      have ht : p.1 ∈ ts := List.fst_mem_of_mem_zipIdx hp
      dsimp only
      rw [hunder p.1 ht]
  funext ts
  exact hdepth (levelDepth ts + 1) ts (Nat.lt_succ_self _)

/-- **The rule for blank lines puts line breaks where the tokens that were there before ask for
them**, on every level, and changes nothing else: its walk comes to its end, with what the only
function on trees leaves that does so. -/
theorem spacing_isSpaced (c : Conditions) (d : Draft) :
    (∃ n, ∀ steps, n ≤ steps →
        walk .forward visit steps () d.tokens = some ((), (Rule.run c .spacing d).tokens))
      ∧ ∃ f, IsSpaced f ∧ (∀ g, IsSpaced g → g = f)
          ∧ Rule.run c .spacing d = { d with tokens := f d.tokens } :=
  ⟨walk_visit d.tokens, addAll, isSpaced_addAll, fun _ hg => hg.unique isSpaced_addAll, rfl⟩

/-- Of two paragraphs in an item of a list, the first has a break in its text. -/
theorem spacing_isSpaced_item :
    let o := Markdown.opening .paragraph "p"
    let c := Markdown.closing .paragraph "p"
    let li := Markdown.closing .listItem "li"
    let soft := Markdown.breakToken .softbreak
    ∃ n, ∀ steps, n ≤ steps →
      walk .forward visit steps ()
          [o, .inline "a\nb" [.text "a", soft, .text "b"], c, o, .inline "d" [.text "d"], c, li]
        = some ((), [o, .inline "a\nb" [.text "a", soft, .newline, .text "b"], c, .newline, o,
            .inline "d" [.text "d"], c, li]) :=
  (spacing_isSpaced ⟨false, true⟩ ⟨_, {}⟩).1

end BlankLines

end MarkdownPreview
