import Mathlib.Data.List.Forall2
import Mathlib.Data.List.TakeWhile
import MarkdownPreview.Proofs.Lowering.Passages

/-!
# Fenced and indented code

The tree does not say whether a code block is fenced or indented; its span of the source tells. A
fence is opened by a run of three or more backticks or tildes after at most three spaces
(`OpensFence`). The tokens go by a weaker test, which lets any blanks stand before the run
(`OpensAfterBlanks`). The two agree on a span that starts with at most three spaces and something
that is no blank, as that of fenced code does (`codeTokens_toldApart`); indented code whose first
line starts with such a run is taken for a fence (`fence_of_indented_marks`).
-/

set_option autoImplicit false

namespace MarkdownPreview.Markdown

open Text

/-! ## Opening a fence -/

/-- A span that is an indentation, a run of three or more backticks or of three or more tildes, and
a rest that does not go on with the run. -/
inductive HasMarks (indent : List Char) : (marks span : List Char) → Prop
  | mk {c : Char} (hc : c = '`' ∨ c = '~') (n : Nat) {rest : List Char}
      (hrest : rest.head? ≠ some c) :
      HasMarks indent (List.replicate (n + 3) c) (indent ++ (List.replicate (n + 3) c ++ rest))

/-- At most three spaces. -/
def IsShallow (indent : List Char) : Prop := ∃ k ≤ 3, indent = List.replicate k ' '

/-- Whether a span opens a code fence with these marks. -/
def OpensFence (marks span : List Char) : Prop :=
  ∃ indent, IsShallow indent ∧ HasMarks indent marks span

/-- Whether a span has these marks after blanks of any kind and number. -/
def OpensAfterBlanks (marks span : List Char) : Prop :=
  ∃ indent, (∀ c ∈ indent, isBlank c = true) ∧ HasMarks indent marks span

variable {indent marks span : List Char}

theorem HasMarks.isBlank_head (h : HasMarks indent marks span) :
    ∃ tail, span = indent ++ tail ∧ ∀ c ∈ tail.head?, isBlank c = false := by
  obtain ⟨hc, n, hrest⟩ := h
  refine ⟨_, rfl, fun d hd => ?_⟩
  rw [List.replicate_succ, List.cons_append, List.head?_cons, Option.mem_some_iff] at hd
  subst hd
  rcases hc with rfl | rfl <;> decide

/-- The blanks that a span starts with are the indentation before its marks. -/
theorem HasMarks.takeWhile_isBlank (h : HasMarks indent marks span)
    (hblank : ∀ c ∈ indent, isBlank c = true) : span.takeWhile isBlank = indent := by
  obtain ⟨tail, rfl, hhead⟩ := h.isBlank_head
  rw [List.takeWhile_append_of_pos hblank]
  cases tail with
  | nil => rw [List.takeWhile_nil, List.append_nil]
  | cons c tail => rw [List.takeWhile_cons_of_neg (by simp [hhead c rfl]), List.append_nil]

theorem IsShallow.isBlank (h : IsShallow indent) : ∀ c ∈ indent, isBlank c = true := by
  obtain ⟨k, -, rfl⟩ := h
  intro c hc
  rw [List.eq_of_mem_replicate hc]
  decide

theorem OpensFence.opensAfterBlanks (h : OpensFence marks span) : OpensAfterBlanks marks span := by
  obtain ⟨indent, hindent, h⟩ := h
  exact ⟨indent, hindent.isBlank, h⟩

/-- A span that opens a fence starts with at most three blanks, all of them spaces. -/
theorem OpensFence.isShallow (h : OpensFence marks span) :
    IsShallow (span.takeWhile isBlank) := by
  obtain ⟨indent, hindent, h⟩ := h
  rwa [h.takeWhile_isBlank hindent.isBlank]

theorem opensFence_iff :
    OpensFence marks span ↔ IsShallow (span.takeWhile isBlank) ∧ OpensAfterBlanks marks span := by
  refine ⟨fun h => ⟨h.isShallow, h.opensAfterBlanks⟩, fun ⟨hshallow, indent, hblank, h⟩ => ?_⟩
  rw [h.takeWhile_isBlank hblank] at hshallow
  exact ⟨indent, hshallow, h⟩

/-! ## The marks that are found -/

theorem isBlank_of_isMark {c : Char} (hc : c = '`' ∨ c = '~') : isBlank c = false := by
  rcases hc with rfl | rfl <;> decide

/-- The run that a list starts with. -/
theorem takeWhile_replicate_append {c : Char} (n : Nat) {rest : List Char}
    (hrest : rest.head? ≠ some c) :
    (List.replicate n c ++ rest).takeWhile (· == c) = List.replicate n c := by
  rw [List.takeWhile_append_of_pos fun d hd => by simp [List.eq_of_mem_replicate hd]]
  cases rest with
  | nil => rw [List.takeWhile_nil, List.append_nil]
  | cons d rest =>
    have hd : (d == c) = false := by simpa using hrest
    rw [List.takeWhile_cons_of_neg (by simp [hd]), List.append_nil]

theorem fenceMarks?_of_hasMarks (h : HasMarks indent marks span)
    (hblank : ∀ c ∈ indent, isBlank c = true) : fenceMarks? span = some marks := by
  obtain ⟨hc, n, hrest⟩ := h
  rename_i c rest
  have htrim : trimStart (indent ++ (List.replicate (n + 3) c ++ rest))
      = c :: c :: c :: (List.replicate n c ++ rest) := by
    rw [trimStart, List.dropWhile_append_of_pos hblank]
    simp [List.replicate_succ, isBlank_of_isMark hc]
  simp only [fenceMarks?, htrim, takeWhile_replicate_append n hrest]
  simp [hc, List.replicate_succ]

theorem hasMarks_of_fenceMarks? (h : fenceMarks? span = some marks) :
    HasMarks (span.takeWhile isBlank) marks span := by
  have hspan : span = span.takeWhile isBlank ++ trimStart span :=
    (List.takeWhile_append_dropWhile ..).symm
  unfold fenceMarks? at h
  split at h
  · rename_i a b c rest htrim
    split at h
    · rename_i hmarks
      simp only [Bool.and_eq_true, Bool.or_eq_true, decide_eq_true_eq] at hmarks
      obtain ⟨⟨hc, rfl⟩, rfl⟩ := hmarks
      have hrun : rest.takeWhile (· == c) = List.replicate (rest.takeWhile (· == c)).length c :=
        List.eq_replicate_of_mem fun d hd => by simpa using List.mem_takeWhile_imp hd
      have hrest : (rest.dropWhile (· == c)).head? ≠ some c := by
        intro hhead
        have := List.head?_dropWhile_not (· == c) rest
        rw [hhead] at this
        simp at this
      have hopens : HasMarks (span.takeWhile isBlank) _ _ :=
        .mk hc (rest.takeWhile (· == c)).length hrest
      rw [List.replicate_succ, List.replicate_succ, List.replicate_succ, ← hrun, List.cons_append,
        List.cons_append, List.cons_append, List.takeWhile_append_dropWhile, ← htrim,
        ← hspan] at hopens
      exact Option.some.inj h ▸ hopens
    · cases h
  · cases h

theorem fenceMarks?_eq_some_iff : fenceMarks? span = some marks ↔ OpensAfterBlanks marks span := by
  constructor
  · intro h
    exact ⟨_, fun c hc => List.mem_takeWhile_imp hc, hasMarks_of_fenceMarks? h⟩
  · rintro ⟨indent, hblank, h⟩
    exact fenceMarks?_of_hasMarks h hblank

/-! ## The code blocks of a document -/

/-- The span of the source that a code block was read from, empty if it is not known. -/
def Passage.codeSpan? (source : List Char) : Passage → Option (List Char)
  | .code extent? _ _ _ => some ((extent?.bind fun e => slice? e.start e.stop source).getD [])
  | _ => none

/-- The spans of the code blocks that a block consists of, in document order. -/
def Node.codeSpans (source : List Char) (n : Node) : List (List Char) :=
  (n.passages 0).filterMap (Passage.codeSpan? source)

def isCodeKind (k : Kind) : Bool := k == .fence || k == .codeBlock

/-- The tokens of a level that stand for code blocks. -/
def codeTokens (ts : List Token) : List Token := ts.filter fun t => isCodeKind t.kind

/-- How the token of a code block tells what its span opens with. -/
structure ToldApart (span : List Char) (t : Token) : Prop where
  kind : t.kind = .fence ∨ t.kind = .codeBlock
  /-- It is that of a fence with the marks that stand after the blanks of the span. -/
  fence : ∀ marks,
    t.kind = .fence ∧ t.markup = String.ofList marks ↔ OpensAfterBlanks marks span
  /-- Whether the span opens a fence is told right if it starts with at most three spaces. -/
  shallow : IsShallow (span.takeWhile isBlank) → ∀ marks,
    t.kind = .fence ∧ t.markup = String.ofList marks ↔ OpensFence marks span
  /-- Else it does not open one; its token is that of indented code if there are no marks. -/
  deep : ¬ IsShallow (span.takeWhile isBlank) →
    (∀ marks, ¬ OpensFence marks span)
      ∧ (t.kind = .codeBlock ↔ ∀ marks, ¬ OpensAfterBlanks marks span)

/-- The kind and the marks of the token of a code block, as its span is found to open. -/
theorem codeToken_cases (s : Setting) (extent? : Option Extent) (value : String)
    (lang? rest? : Option String) {t : Token} (ht : codeToken s extent? value lang? rest? = t) :
    (∃ marks, fenceMarks? (s.slice extent?) = some marks
        ∧ t.kind = .fence ∧ t.markup = String.ofList marks)
      ∨ fenceMarks? (s.slice extent?) = none ∧ t.kind = .codeBlock := by
  subst ht
  unfold codeToken
  cases fenceMarks? (s.slice extent?) with
  | some marks => exact .inl ⟨marks, rfl, rfl, rfl⟩
  | none => exact .inr ⟨rfl, rfl⟩

theorem toldApart_codeToken (s : Setting) (extent? : Option Extent) (value : String)
    (lang? rest? : Option String) :
    ToldApart (s.slice extent?) (codeToken s extent? value lang? rest?) := by
  generalize ht : codeToken s extent? value lang? rest? = t
  have hcases := codeToken_cases s extent? value lang? rest? ht
  generalize s.slice extent? = span at hcases
  have hkind : t.kind = .fence ∨ t.kind = .codeBlock := by
    rcases hcases with ⟨_, _, hk, _⟩ | ⟨_, hk⟩
    · exact .inl hk
    · exact .inr hk
  have hfence : ∀ marks,
      t.kind = .fence ∧ t.markup = String.ofList marks ↔ OpensAfterBlanks marks span := by
    intro marks
    rw [← fenceMarks?_eq_some_iff]
    rcases hcases with ⟨found, hfound, hk, hm⟩ | ⟨hnone, hk⟩
    · simp [hfound, hk, hm, String.ofList_inj]
    · simp [hnone, hk]
  refine ⟨hkind, hfence, fun hshallow marks => ?_, fun hdeep => ⟨fun marks hopens => ?_, ?_⟩⟩
  · rw [hfence marks, opensFence_iff, and_iff_right hshallow]
  · exact hdeep hopens.isShallow
  · constructor
    · intro hk marks hopens
      exact nomatch hk.symm.trans ((hfence marks).mpr hopens).1
    · intro hnone
      rcases hcases with ⟨found, hfound, -⟩ | ⟨-, hk⟩
      · exact absurd (fenceMarks?_eq_some_iff.mp hfound) (hnone found)
      · exact hk

theorem codeTokens_standing (ts : List Token) : codeTokens (standing ts) = codeTokens ts := by
  rw [codeTokens, standing, List.filter_filter]
  refine List.filter_congr fun t _ => ?_
  cases t.kind <;> rfl

theorem codeTokens_append (ts us : List Token) :
    codeTokens (ts ++ us) = codeTokens ts ++ codeTokens us := List.filter_append ..

theorem toldApart_passage (s : Setting) (p : Passage) :
    List.Forall₂ ToldApart (p.codeSpan? s.source).toList (codeTokens (p.tokens s)) := by
  cases p with
  | code extent? value lang? rest? =>
    have ht := toldApart_codeToken s extent? value lang? rest?
    have hcode : codeTokens (Passage.tokens s (.code extent? value lang? rest?))
        = [codeToken s extent? value lang? rest?] := by
      refine List.filter_cons_of_pos ?_
      rcases ht.kind with hk | hk <;> rw [hk] <;> rfl
    rw [hcode]
    exact .cons ht .nil
  | definition _ extent? url =>
    rw [Passage.tokens]
    split <;> exact .nil
  | text _ _ | html _ | thematicBreak _ => exact .nil

theorem toldApart_passages (s : Setting) (ps : List Passage) :
    List.Forall₂ ToldApart (ps.filterMap (Passage.codeSpan? s.source))
      (codeTokens (ps.flatMap (Passage.tokens s))) := by
  induction ps with
  | nil => exact .nil
  | cons p ps ih =>
    have hspans : (p :: ps).filterMap (Passage.codeSpan? s.source)
        = (p.codeSpan? s.source).toList ++ ps.filterMap (Passage.codeSpan? s.source) := by
      cases hp : p.codeSpan? s.source with
      | none => exact List.filterMap_cons_none hp
      | some span => exact List.filterMap_cons_some hp
    rw [hspans, List.flatMap_cons, codeTokens_append]
    exact List.rel_append (toldApart_passage s p) ih

/-- **The tokens of code blocks tell fenced from indented code by the marks after the blanks** that
the spans of the blocks start with, block by block in document order. That is right for every span
that starts with at most three spaces, and for every deeper indented one without such marks. -/
theorem codeTokens_toldApart (source : String) (acceptance : Acceptance) (superscript : Bool)
    (root : Node) :
    List.Forall₂ ToldApart (root.codeSpans source.toList)
      (codeTokens (tokens source acceptance superscript root)) := by
  rw [← codeTokens_standing, tokens, standing_block]
  exact toldApart_passages ⟨source.toList, acceptance, superscript, root.definitions⟩ _

/-- A span with marks after four spaces opens no fence, but its block becomes the token of one. -/
theorem fence_of_indented_marks :
    let root := Node.root (some ⟨0, 7⟩) [.code (some ⟨0, 7⟩) "```" none none]
    root.codeSpans "    ```".toList = ["    ```".toList]
      ∧ (∀ marks, ¬ OpensFence marks "    ```".toList)
      ∧ tokens "    ```" .lenient false root = [{ Token.ofBlock .fence "code" .selfClosing with
          content := "```\n", markup := "```" }] := by
  refine ⟨by decide +kernel, fun marks hopens => ?_, by decide +kernel⟩
  obtain ⟨k, hk, hindent⟩ := hopens.isShallow
  have hlength := congrArg List.length hindent
  rw [List.length_replicate] at hlength
  have hfour : ("    ```".toList.takeWhile isBlank).length = 4 := by decide
  omega

end MarkdownPreview.Markdown
