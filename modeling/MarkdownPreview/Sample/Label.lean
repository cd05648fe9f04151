import MarkdownPreview.Text.Caseless

/-!
# Labels of code samples

A line of a code sample can be a directive that gives the sample a label: `[label …]` for the one
above it, `[secondary_label …]` for the one inside. The first directive of each kind counts.
Directives are taken out of the code until both labels are known; what looks like one after that is
code. -/

set_option autoImplicit false

namespace MarkdownPreview.Sample

open Text

structure Labels where
  /-- Shown above the sample. -/
  primary? : Option String := none
  /-- Shown inside the sample. -/
  secondary? : Option String := none
  deriving Repr, DecidableEq

/-- A line that gives a label. -/
inductive Directive where
  | primary (label : String)
  | secondary (label : String)
  deriving Repr, DecidableEq

/-- The text before a closing mark that ends the line; it is not empty and has no line feed. -/
def beforeFinal? (mark : Char) (cs : List Char) : Option String :=
  match cs.reverse with
  | c :: body =>
    if c = mark ∧ body ≠ [] ∧ '\n' ∉ body then some (String.ofList body.reverse) else none
  | [] => none

/-- Reads a line as a directive. Its keyword may be in any case. -/
def Directive.ofLine? (line : List Char) : Option Directive :=
  match dropCaseless? "[label ".toList line, dropCaseless? "[secondary_label ".toList line with
  | some rest, _ => (beforeFinal? ']' rest).map .primary
  | none, some rest => (beforeFinal? ']' rest).map .secondary
  | none, none => none

namespace Labels

def isFull (labels : Labels) : Bool := labels.primary?.isSome && labels.secondary?.isSome

/-- The labels after a directive; a label that is known stays. -/
def add (labels : Labels) : Directive → Labels
  | .primary label => { labels with primary? := labels.primary?.or (some label) }
  | .secondary label => { labels with secondary? := labels.secondary?.or (some label) }

/-- Takes the directives out of the lines of a sample, given the labels known so far. Returns all
labels and the lines that stay. -/
def extract (labels : Labels) : List (List Char) → Labels × List (List Char)
  | [] => (labels, [])
  | line :: rest =>
    match if labels.isFull then none else Directive.ofLine? line with
    | some directive => extract (labels.add directive) rest
    | none =>
      let (all, kept) := extract labels rest
      (all, line :: kept)

end Labels

end MarkdownPreview.Sample
