import MarkdownPreview.Proofs.Checked.Blocks
import MarkdownPreview.Proofs.Checked.Edits
import MarkdownPreview.Proofs.Checked.Lowering
import MarkdownPreview.Proofs.Checked.Removal
import MarkdownPreview.Proofs.Checked.Samples
import MarkdownPreview.Proofs.Checked.Variables

/-!
# Documents and rules, with every access checked

The rules once more, each with its walk or its places checked, and any number of them one after the
other. The tokens that a rule is given need not come from a document: they may be unpaired, and there
may be running text at any depth. No rule asks for anything that is not there, and the next one gets
what the library says it gets.

What always succeeds is not checked: sums of places, which are numbers without a bound here, and the
whole of a match, which is there whenever there is a match.
-/

set_option autoImplicit false

namespace MarkdownPreview.Checked

/-- Walks the tokens of a document. -/
def walkThrough? (visit? : Visit?) (steps : Nat) (d : Draft) : Option Draft :=
  (walk? visit? steps d.tokens).map fun tokens => { d with tokens }

/-- Runs a rule with every access checked, and at most so many steps in each walk. -/
def runRule? (c : Conditions) (steps : Nat) : Rule → Draft → Option Draft
  | .headings, d => addAnchors? Rule.anchors d
  | .links, d => walkThrough? markLink? steps d
  | .comments, d => if c.html then some d else walkThrough? removeVisit? steps d
  | .notes, d => (wrapAll? d.tokens).map fun tokens => { d with tokens }
  | .variables, d => walkThrough? highlightVisit? steps d
  | .samples, d => walkThrough? (renderVisit? c.spaced) steps d
  | .spacing, d => walkThrough? addBlank? steps d

/-- Runs rules, one after the other. -/
def runRules? (c : Conditions) (steps : Nat) : List Rule → Draft → Option Draft
  | [], d => some d
  | r :: rules, d => (runRule? c steps r d).bind (runRules? c steps rules)

variable {visit? : Visit?}

theorem walkThrough?_eq {d : Draft} {out : List Token}
    (h : ∃ n, ∀ steps, n ≤ steps → walk? visit? steps d.tokens = some out) :
    ∃ n, ∀ steps, n ≤ steps → walkThrough? visit? steps d = some { d with tokens := out } := by
  obtain ⟨n, hn⟩ := h
  refine ⟨n, fun steps hsteps => ?_⟩
  rw [walkThrough?, hn steps hsteps]
  rfl

/-- **No rule fails**, whatever the tokens are. -/
theorem runRule?_eq (c : Conditions) (r : Rule) (d : Draft) :
    ∃ n, ∀ steps, n ≤ steps → runRule? c steps r d = some (r.run c d) := by
  match r with
  | .headings => exact ⟨0, fun _ _ => addAnchors?_eq Rule.anchors d⟩
  | .links => exact walkThrough?_eq (walk?_markLinks d.tokens)
  | .comments =>
    cases hhtml : c.html with
    | true => exact ⟨0, fun _ _ => by simp [runRule?, Rule.run, hhtml]⟩
    | false =>
      have hwalk := walkThrough?_eq (walk?_removeAll d.tokens)
      simpa [runRule?, Rule.run, hhtml] using hwalk
  | .notes =>
    refine ⟨0, fun _ _ => ?_⟩
    rw [runRule?, wrapAll?_eq]
    rfl
  | .variables => exact walkThrough?_eq (walk?_highlightAll d.tokens)
  | .samples => exact walkThrough?_eq (walk?_renderAll c.spaced d.tokens)
  | .spacing => exact walkThrough?_eq (walk?_addBlanks d.tokens)

/-- Nor does one fail behind any others. -/
theorem runRules?_eq (c : Conditions) (rules : List Rule) (d : Draft) :
    ∃ n, ∀ steps, n ≤ steps → runRules? c steps rules d = some (runRules c rules d) := by
  induction rules generalizing d with
  | nil => exact ⟨0, fun _ _ => rfl⟩
  | cons r rules ih =>
    obtain ⟨n, hn⟩ := runRule?_eq c r d
    obtain ⟨m, hm⟩ := ih (r.run c d)
    refine ⟨max n m, fun steps hsteps => ?_⟩
    rw [runRules?, hn steps (by omega), Option.bind_some, hm steps (by omega)]
    rfl

/-- **Nothing fails.** Every source and tree become tokens, wherever the tree says that its nodes
stand; and from any tokens, rules go on to their end in any order and number, with HTML or without. -/
theorem tokens_and_rules_never_fail :
    (∀ source acceptance superscript root,
      tokens? source acceptance superscript root
        = some (Markdown.tokens source acceptance superscript root))
    ∧ ∀ c rules d, ∃ n, ∀ steps, n ≤ steps →
      runRules? c steps rules d = some (runRules c rules d) :=
  ⟨tokens?_eq, runRules?_eq⟩

end MarkdownPreview.Checked
