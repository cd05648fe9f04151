import Mathlib.Data.List.Infix
import Mathlib.Logic.Relation
import MarkdownPreview.Proofs.Markup.Seams
import MarkdownPreview.Proofs.Veil.Blocks
import MarkdownPreview.Proofs.Veil.Rules

/-!
# What comments hide does not show in a preview

Changing what a comment hides leaves the preview of a document as it is
(`Preview.render_eq_of_concealed`), since
the text of a block is written without its comments. What a comment may hide depends on what else
reads it: it must not look like the end of a comment, the mark of a variable where variables are
highlighted, or a part of raised text where superscripts are read; and where headings get anchors,
it must not stand in a heading, as their names are made before the comments are taken out.
-/

set_option autoImplicit false

namespace MarkdownPreview

open Comment Html Text

variable {hides : List Char → List Char → Prop} {t u : Token} {ts us : List Token}
  {previous? previous'? next? next'? : Option Token}

/-! ## Writing documents that are alike -/

/-- The same token to its neighbours. -/
structure Token.Resembles (t u : Token) : Prop where
  kind : t.kind = u.kind
  nesting : t.nesting = u.nesting
  tag : t.tag = u.tag
  hidden : t.hidden = u.hidden

theorem LeafLike.resembles (h : LeafLike hides t u) : t.Resembles u := by
  cases h with
  | same => exact ⟨rfl, rfl, rfl, rfl⟩
  | text => exact ⟨rfl, rfl, rfl, rfl⟩

theorem BlockLike.resembles (h : BlockLike hides t u) : t.Resembles u := by
  cases h with
  | plain => exact ⟨rfl, rfl, rfl, rfl⟩
  | line => exact ⟨rfl, rfl, rfl, rfl⟩

theorem startsLine_eq (h : Option.Rel Token.Resembles previous? previous'?) :
    Place.startsLine ⟨previous?, t, next?⟩ = Place.startsLine ⟨previous'?, t, next'?⟩ := by
  cases h with
  | none => rfl
  | some h => simp only [Place.startsLine, h.hidden]

theorem endsLine_eq (h : Option.Rel Token.Resembles next? next'?) :
    Place.endsLine ⟨previous?, t, next?⟩ = Place.endsLine ⟨previous'?, t, next'?⟩ := by
  cases h with
  | none => rfl
  | some h => simp only [Place.endsLine, h.kind, h.hidden, h.nesting, h.tag]

/-- Places that are written alike come from levels that are alike. -/
theorem map_places_eq {R : Token → Token → Prop} {f : Place → String}
    (hR : ∀ {t u}, R t u → t.Resembles u)
    (hf : ∀ {t u previous? previous'? next? next'?}, R t u →
      Option.Rel Token.Resembles previous? previous'? → Option.Rel Token.Resembles next? next'? →
      f ⟨previous?, t, next?⟩ = f ⟨previous'?, u, next'?⟩)
    (h : List.Forall₂ R ts us) : (places ts).map f = (places us).map f := by
  have hafter : ∀ {previous? previous'?}, Option.Rel Token.Resembles previous? previous'? →
      (placesAfter previous? ts).map f = (placesAfter previous'? us).map f := by
    induction h with
    | nil => exact fun _ => rfl
    | cons htu h ih =>
      intro previous? previous'? hp
      rw [placesAfter, placesAfter, List.map_cons, List.map_cons, ih (.some (hR htu)),
        hf htu hp (rel_mono (Veil.head?_rel h) hR)]
  exact hafter .none

namespace Preview

variable (p : Preview) (hw : WellHidden hides)

theorem renderPlace_markup (t : Token) (markup : String) :
    p.renderer.renderPlace ⟨previous?, { t with markup }, next?⟩
      = p.renderer.renderPlace ⟨previous?, t, next?⟩ := by
  unfold Html.Renderer.renderPlace
  cases hk : t.kind <;> rfl

include hw

theorem renderRun_eq (h : LevelLike hides ts us) :
    p.renderer.renderRun ts = p.renderer.renderRun us := by
  refine congrArg String.join (map_places_eq LeafLike.resembles ?_ h)
  intro t u previous? previous'? next? next'? htu hp hn
  cases htu with
  | same => exact p.renderPlace_congr (startsLine_eq hp) (endsLine_eq hn)
  | @text t x y hk h =>
    have htext (content : String) (previous? next? : Option Token) : p.renderer.renderPlace
        ⟨previous?, { t with content }, next?⟩ = Prose.escape content := by
      unfold Html.Renderer.renderPlace
      simp only [hk]
      rfl
    rw [htext, htext, hw.escape_eq h]

/-- **Documents that are alike are written the same.** -/
theorem render_eq_of_documentLike (h : DocumentLike hides ts us) :
    p.renderer.render ts = p.renderer.render us := by
  refine congrArg String.join (map_places_eq BlockLike.resembles ?_ h)
  intro t u previous? previous'? next? next'? htu hp hn
  cases htu with
  | plain markup hk =>
    dsimp only
    rw [if_neg hk, if_neg hk, p.renderPlace_markup]
    exact p.renderPlace_congr (startsLine_eq hp) (endsLine_eq hn)
  | line _ hcs => exact p.renderRun_eq hw hcs

omit hw

/-! ## What a comment may hide -/

/-- What a comment may hide from a preview. -/
structure Harmless (body : List Char) : Prop where
  oneLine : '\n' ∉ body
  endsOnce : EndsOnce body ∧ EndsOnce (brackets body)
  unmarked : .variables ∈ p.enabled →
    ¬Variable.mark <:+: body ∧ ¬Variable.mark <:+: brackets body
  caretless : p.options.superscript = true → '^' ∉ body

/-- What a comment may hide in the one and in the other of two documents. -/
structure Hides (old new : List Char) : Prop where
  before : p.Harmless old
  after : p.Harmless new
  blanks : p.options.superscript = true → old.any isBlank = new.any isBlank

instance (p : Preview) (body : List Char) : Decidable (p.Harmless body) :=
  decidable_of_iff ('\n' ∉ body ∧ (EndsOnce body ∧ EndsOnce (brackets body)) ∧
      (.variables ∈ p.enabled →
        ¬Variable.mark <:+: body ∧ ¬Variable.mark <:+: brackets body) ∧
      (p.options.superscript = true → '^' ∉ body))
    ⟨fun ⟨hline, hends, hmark, hcaret⟩ => ⟨hline, hends, hmark, hcaret⟩,
      fun ⟨hline, hends, hmark, hcaret⟩ => ⟨hline, hends, hmark, hcaret⟩⟩

instance (p : Preview) (old new : List Char) : Decidable (p.Hides old new) :=
  decidable_of_iff (p.Harmless old ∧ p.Harmless new ∧
      (p.options.superscript = true → old.any isBlank = new.any isBlank))
    ⟨fun ⟨hold, hnew, hblank⟩ => ⟨hold, hnew, hblank⟩,
      fun ⟨hold, hnew, hblank⟩ => ⟨hold, hnew, hblank⟩⟩

end Preview

/-! ## Reading brackets again -/

theorem Comment.brackets_brackets (cs : List Char) : brackets (brackets cs) = brackets cs := by
  have hlt : ¬Entity.lt.chars <:+: brackets cs := fun h =>
    not_infix_replace (by decide) (by decide) cs
      (infix_of_infix_replace (by decide) (by decide) (by decide) h)
  have hgt : ¬Entity.gt.chars <:+: brackets cs := not_infix_replace (by decide) (by decide) _
  rw [brackets, replace_exactly_eq_self hlt, replace_exactly_eq_self hgt]

theorem Comment.mem_brackets_iff {c : Char} (hc : '<' ≠ c ∧ '>' ≠ c)
    (he : c ∉ Entity.lt.chars ∧ c ∉ Entity.gt.chars) (cs : List Char) :
    c ∈ brackets cs ↔ c ∈ cs := by
  rw [brackets, mem_replace_exactly_iff (by decide) he.2 hc.2,
    mem_replace_exactly_iff (by decide) he.1 hc.1]

theorem Comment.any_isBlank_brackets (cs : List Char) :
    (brackets cs).any isBlank = cs.any isBlank := by
  have hmem {c : Char} (hc : isBlank c = true) : c ∈ brackets cs ↔ c ∈ cs := by
    have hne {d : Char} (hd : isBlank d = false) : d ≠ c := by
      rintro rfl
      rw [hc] at hd
      cases hd
    have hnot {ds : List Char} (hds : ds.all (fun d => !isBlank d) = true) : c ∉ ds := by
      intro hcd
      have hclear := List.all_eq_true.mp hds c hcd
      rw [hc] at hclear
      cases hclear
    exact mem_brackets_iff ⟨hne (by decide), hne (by decide)⟩
      ⟨hnot (by decide), hnot (by decide)⟩ cs
  rw [Bool.eq_iff_iff, List.any_eq_true, List.any_eq_true]
  constructor
  · rintro ⟨c, hc, hb⟩
    exact ⟨c, (hmem hb).mp hc, hb⟩
  · rintro ⟨c, hc, hb⟩
    exact ⟨c, (hmem hb).mpr hc, hb⟩

namespace Preview

variable {p : Preview} {body old new : List Char}

theorem Harmless.brackets (h : p.Harmless body) : p.Harmless (brackets body) where
  oneLine hline := h.oneLine ((mem_brackets_iff (by decide) (by decide) _).mp hline)
  endsOnce := by
    rw [brackets_brackets]
    exact ⟨h.endsOnce.2, h.endsOnce.2⟩
  unmarked hv := by
    rw [brackets_brackets]
    exact ⟨(h.unmarked hv).2, (h.unmarked hv).2⟩
  caretless hs hcaret :=
    h.caretless hs ((mem_brackets_iff (by decide) (by decide) _).mp hcaret)

theorem wellHidden (p : Preview) : WellHidden p.Hides where
  oneLine h := ⟨h.before.oneLine, h.after.oneLine⟩
  endOnce h := ⟨h.before.endsOnce.1, h.after.endsOnce.1⟩
  reads h := ⟨h.before.brackets, h.after.brackets, fun hs => by
    rw [any_isBlank_brackets, any_isBlank_brackets, h.blanks hs]⟩

theorem markless (hv : .variables ∈ p.enabled) : Markless p.Hides := fun h =>
  ⟨(h.before.unmarked hv).1, (h.after.unmarked hv).1⟩

theorem raisable (p : Preview) : Markdown.Raisable p.Hides p.options.superscript := fun hs =>
  ⟨fun h => ⟨h.before.caretless hs, h.after.caretless hs⟩, fun h => h.blanks hs⟩

end Preview

/-! ## Headings -/

namespace Markdown

variable {place : Nat → Nat → Prop} {calm : List Node → List Node → Prop} {s s' : Setting}
  {ns ns' : List Node}

/-- A text that sees nothing of a comment is the same in both documents. -/
theorem textToken_inner_eq (hs : SettingLike (fun _ _ => False) place s s')
    (hns : NodesLike place (fun _ _ => False) calm ns ns') (depth : Nat) :
    (textToken s depth ns).inner = (textToken s' depth ns').inner := by
  apply eq_of_levelLike_false
  exact levelLike_textToken False.elim hs (fun _ => ⟨False.elim, False.elim⟩) depth hns

end Markdown

namespace Preview

open Markdown

variable {p : Preview} {before old new after : List Char} {d d' : Document}

/-- The nodes of a heading are not touched by a comment: it is after all of them, or before. -/
def Untouched (before old new : List Char) (ns ns' : List Node) : Prop :=
  NodesLike (Early before) (fun _ _ => False) (fun _ _ => True) ns ns'
    ∨ NodesLike (Late before old new) (fun _ _ => False) (fun _ _ => True) ns ns'

/-- Two documents that only differ in what one comment of the source hides. Where headings get
anchors, it is not in a heading. -/
inductive Conceals (p : Preview) (d d' : Document) : Prop
  | intro {before old new after : List Char} (hides : p.Hides old new)
    (hsource : d.text.toList = sourceWith before old after)
    (hsource' : d'.text.toList = sourceWith before new after)
    (htree : NodeLike (Moves before old new) p.Hides
      (fun ns ns' => .headings ∈ p.enabled → Untouched before old new ns ns') d.tree d'.tree)

/-- The rules of a preview are in their order. -/
def Ordered (p : Preview) : Prop := List.Sublist p.enabled Rule.all

theorem ordered_ofOptions (o : Options) : (ofOptions o).Ordered := List.filter_sublist

theorem ordered_enable (p : Preview) (r : Rule) : (p.enable r).Ordered := List.filter_sublist

theorem Ordered.disable (h : p.Ordered) (r : Rule) : (p.disable r).Ordered :=
  List.filter_sublist.trans h

theorem Ordered.cases (h : p.Ordered) :
    .headings ∉ p.enabled ∨ ∃ rules, p.enabled = .headings :: rules ∧ .headings ∉ rules := by
  have hother {rules : List Rule}
      (h : List.Sublist rules [.links, .comments, .notes, .variables, .samples, .spacing]) :
      Rule.headings ∉ rules := fun hmem => absurd (h.subset hmem) (by decide)
  rcases List.sublist_cons_iff.mp h with h | ⟨rules, hrules, h⟩
  · exact .inl (hother h)
  · exact .inr ⟨rules, hrules, hother h⟩

theorem sourceLike (p : Preview) (h : p.Hides old new) (before after : List Char)
    (acceptance : Acceptance) (definitions : List (String × Destination)) :
    SourceLike p.Hides (Moves before old new)
      (fun ns ns' => .headings ∈ p.enabled → Untouched before old new ns ns')
      (.headings ∈ p.enabled)
      ⟨sourceWith before old after, acceptance, p.options.superscript, definitions⟩
      ⟨sourceWith before new after, acceptance, p.options.superscript, definitions⟩ where
  oneLine := p.wellHidden.oneLine
  setting := settingLike_of_sight (sight_moves h after) _ _ _
  raisable := p.raisable
  titles hcalm htitled depth := by
    apply congrArg Anchor.title
    rcases hcalm htitled with hearly | hlate
    · exact textToken_inner_eq (settingLike_of_sight (sight_early after) _ _ _) hearly depth
    · exact textToken_inner_eq (settingLike_of_sight (sight_late after) _ _ _) hlate depth

/-- Documents that differ in what a comment hides become documents that are alike. -/
theorem Conceals.sections (h : p.Conceals d d') : SectionsLike p.Hides (.headings ∈ p.enabled)
    (d.tokens p.acceptance p.options.superscript)
    (d'.tokens p.acceptance p.options.superscript) := by
  obtain ⟨hides, hsource, hsource', htree⟩ := h
  rw [Document.tokens, Document.tokens, Markdown.tokens, Markdown.tokens, hsource, hsource',
    ← definitions_eq htree]
  exact sections_block (p.sourceLike hides _ _ _ _) htree 0

theorem Conceals.tokens (ho : p.Ordered) (h : p.Conceals d d') :
    DocumentLike p.Hides (p.tokens d) (p.tokens d') := by
  rw [p.tokens_eq, p.tokens_eq]
  rcases ho.cases with hheadings | ⟨rules, hrules, hheadings⟩
  · exact documentLike_runRules p.wellHidden p.conditions hheadings p.markless
      h.sections.documentLike
  · -- Headings are named before any other rule runs, while their titles are still the same.
    have hmem : Rule.headings ∈ p.enabled := hrules ▸ List.mem_cons_self
    have hmarkless (hv : .variables ∈ rules) : Markless p.Hides :=
      p.markless (hrules ▸ List.mem_cons_of_mem _ hv)
    rw [hrules]
    exact documentLike_runRules p.wellHidden p.conditions hheadings hmarkless
      (documentLike_addAll Rule.anchors hmem h.sections {})

/-- **What comments hide does not show.** Documents that differ in what one comment hides after the
other have the same HTML. -/
theorem render_eq_of_concealed (ho : p.Ordered) (h : Relation.ReflTransGen p.Conceals d d') :
    p.render d = p.render d' := by
  induction h with
  | refl => rfl
  | tail _ hstep ih =>
    rw [ih]
    exact p.render_eq_of_documentLike p.wellHidden (hstep.tokens ho)

end Preview

/-- A document with a comment below its heading. -/
def Document.remarked (body : String) : Document :=
  let stop := 14 + body.length
  { source := "# t\n\na<!--" ++ body ++ "-->c"
    tree := .root (some ⟨0, stop⟩)
      [.heading (some ⟨0, 3⟩) 1 [.text (some ⟨2, 3⟩) "t"],
        .paragraph (some ⟨5, stop⟩) [.text (some ⟨5, stop⟩) ("a<!--" ++ body ++ "-->c")]] }

theorem Document.render_remarked :
    Preview.Ordered ⟨{ superscript := true }, Rule.all⟩ ∧
      Preview.Conceals ⟨{ superscript := true }, Rule.all⟩ (Document.remarked "b")
        (Document.remarked "other") ∧
      Preview.render ⟨{ superscript := true }, Rule.all⟩ (Document.remarked "b")
        = Preview.render ⟨{ superscript := true }, Rule.all⟩ (Document.remarked "other") := by
  have ho : Preview.Ordered ⟨{ superscript := true }, Rule.all⟩ := List.Sublist.refl _
  have hhides : Preview.Hides ⟨{ superscript := true }, Rule.all⟩ "b".toList "other".toList := by
    decide +kernel
  have hsource : (Document.remarked "b").text.toList
      = sourceWith "# t\n\na".toList "b".toList "c".toList := by decide +kernel
  have hsource' : (Document.remarked "other").text.toList
      = sourceWith "# t\n\na".toList "other".toList "c".toList := by decide +kernel
  have hearly {n : Nat} (h : n ≤ 6) :
      Moves "# t\n\na".toList "b".toList "other".toList n n := .early h
  have hstop : Moves "# t\n\na".toList "b".toList "other".toList 15 19 := .late 1
  have hconceals : Preview.Conceals ⟨{ superscript := true }, Rule.all⟩ (Document.remarked "b")
      (Document.remarked "other") := by
    refine .intro hhides hsource hsource' ?_
    refine .root (.some ⟨hearly (by decide), hstop⟩) (.cons ?_ (.cons ?_ .nil))
    · refine .heading (.some ⟨hearly (by decide), hearly (by decide)⟩) (.cons ?_ .nil) fun _ => ?_
      · exact .text (.some ⟨hearly (by decide), hearly (by decide)⟩) (.refl _)
      · exact .inl (.cons (.text (.some ⟨⟨rfl, by decide⟩, ⟨rfl, by decide⟩⟩) (.refl _)) .nil)
    · refine .paragraph (.some ⟨hearly (by decide), hstop⟩) (.cons ?_ .nil)
      exact .text (.some ⟨hearly (by decide), hstop⟩) (.cons 'a' (.comment hhides (.refl ['c'])))
  exact ⟨ho, hconceals, Preview.render_eq_of_concealed ho (.single hconceals)⟩

/-- A document that is a heading with a comment. -/
def Document.titled (body : String) : Document :=
  let stop := 10 + body.length
  { source := "# a<!--" ++ body ++ "-->"
    tree := .root (some ⟨0, stop⟩)
      [.heading (some ⟨0, stop⟩) 1 [.text (some ⟨2, stop⟩) ("a<!--" ++ body ++ "-->")]] }

/-- A document with a comment between carets. -/
def Document.raised (body : String) : Document :=
  let stop := 10 + body.length
  { source := "a^<!--" ++ body ++ "-->^"
    tree := .root (some ⟨0, stop⟩)
      [.paragraph (some ⟨0, stop⟩) [.text (some ⟨0, stop⟩) ("a^<!--" ++ body ++ "-->^")]] }

/-- A document in which a comment is left open before emphasis and `rest`, which is the text of
`source`. -/
def Document.interrupted (source rest : String) : Document :=
  let stop := 8 + source.length
  { source := "<!-- *b*" ++ source
    tree := .root (some ⟨0, stop⟩)
      [.paragraph (some ⟨0, stop⟩)
        [.text (some ⟨0, 5⟩) "<!-- ", .emphasis (some ⟨5, 8⟩) [.text (some ⟨6, 7⟩) "b"],
          .text (some ⟨8, stop⟩) rest]] }

/-- The variables of a paragraph of texts are found in each of them alone. -/
theorem Preview.render_paragraph {p : Preview} (d : Document) (x : String) (texts : List String)
    (hp : p.enabled = [.comments, .variables]) (hhtml : p.options.html = false)
    (hremoved : Comment.removeAll (d.tokens p.acceptance p.options.superscript)
      = [Markdown.opening .paragraph "p", Token.inline x (texts.map Token.text),
        Markdown.closing .paragraph "p"]) :
    p.render d = p.renderer.render [Markdown.opening .paragraph "p",
      Token.inline x (texts.map fun text => Variable.highlightToken (Token.text text)),
      Markdown.closing .paragraph "p"] := by
  have htokens : p.tokens d = Variable.highlightAll
      (Comment.removeAll (d.tokens p.acceptance p.options.superscript)) := by
    simp [tokens_eq, hp, runRules, Rule.run, conditions, hhtml]
  have hbelow : mapBelow Variable.highlightLevel (texts.map Token.text) = texts.map Token.text := by
    simp [mapBelow_eq_map, Token.text, mapChildren]
  have hline : Variable.highlightLevel (some .inline) (texts.map Token.text)
      = texts.map fun text => Variable.highlightToken (Token.text text) := by
    rw [Variable.highlightLevel, if_pos rfl,
      Variable.rejoin_eq_self (by simp [Token.text]), List.map_map]
    rfl
  have hbelow' (y : String) : (Token.inline y (texts.map Token.text)).mapLevels
      Variable.highlightLevel = Token.inline y
        (texts.map fun text => Variable.highlightToken (Token.text text)) := by
    rw [Token.mapLevels_eq, Token.inline, mapChildren, hbelow, hline]
    rfl
  rw [render, htokens, hremoved, Variable.highlightAll, mapLevels, mapBelow, mapBelow, hbelow']
  rfl

/-- What else reads a comment shows what it hides: the anchors of headings, the marks of variables
and of raised text, and a comment that was left open before it. -/
theorem Preview.render_shows :
    render ⟨{}, [.headings, .comments]⟩ (.titled "b")
        ≠ render ⟨{}, [.headings, .comments]⟩ (.titled "c")
      ∧ render ⟨{}, [.comments, .variables]⟩ (.raised "b")
        ≠ render ⟨{}, [.comments, .variables]⟩ (.raised "<^>b<^>")
      ∧ render ⟨{}, [.comments, .variables]⟩ (.interrupted "--><!--b-->" "--><!--b-->")
        ≠ render ⟨{}, [.comments, .variables]⟩ (.interrupted
          "--><!--&amp;lt;^&amp;gt;b&amp;lt;^&amp;gt;-->" "--><!--&lt;^&gt;b&lt;^&gt;-->")
      ∧ render ⟨{ superscript := true }, [.comments]⟩ (.raised "b")
        ≠ render ⟨{ superscript := true }, [.comments]⟩ (.raised "^")
      ∧ render ⟨{ superscript := true }, [.comments]⟩ (.raised "b")
        ≠ render ⟨{ superscript := true }, [.comments]⟩ (.raised "b c")
      ∧ render ⟨{}, [.comments]⟩ (.interrupted "<!--b-->" "<!--b-->")
        ≠ render ⟨{}, [.comments]⟩ (.interrupted "<!-->-->" "<!-->-->")
      ∧ render ⟨{}, [.comments]⟩ (.interrupted "<!--b-->" "<!--b-->")
        ≠ render ⟨{}, [.comments]⟩ (.interrupted "<!--->-->" "<!--->-->")
      ∧ render ⟨{}, [.comments]⟩ (.interrupted "<!--b-->" "<!--b-->")
        ≠ render ⟨{}, [.comments]⟩ (.interrupted "<!----&amp;gt;b-->" "<!----&gt;b-->") := by
  refine ⟨by decide +kernel, ?_, ?_, by decide +kernel, by decide +kernel, by decide +kernel,
    by decide +kernel, by decide +kernel⟩
  · rw [render_paragraph (.raised "b") "a^<!--b-->^" ["a^<!--b-->^"] rfl rfl (by decide +kernel),
      render_paragraph (.raised "<^>b<^>") "a^<!--<^>b<^>-->^" ["a^<!--<^>b<^>-->^"] rfl rfl
        (by decide +kernel)]
    decide +kernel
  · rw [render_paragraph (.interrupted "--><!--b-->" "--><!--b-->") "" ["", "<!--b-->"] rfl rfl
        (by decide +kernel),
      render_paragraph (.interrupted "--><!--&amp;lt;^&amp;gt;b&amp;lt;^&amp;gt;-->"
        "--><!--&lt;^&gt;b&lt;^&gt;-->") "" ["", "<!--<^>b<^>-->"] rfl rfl (by decide +kernel)]
    decide +kernel

end MarkdownPreview
