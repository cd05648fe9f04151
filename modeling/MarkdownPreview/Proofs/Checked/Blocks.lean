import MarkdownPreview.Note
import MarkdownPreview.Preview.Draft
import MarkdownPreview.Proofs.Checked.Place

/-!
# Anchors and notes, with every place checked

Anchors are given by going through the places of a document; a note is put between its tags at the
first and the last place of its tokens. Notes of no tokens are left alone, so both places are there;
and after the closing tag has been put in, there is still a first one.
-/

set_option autoImplicit false

namespace MarkdownPreview.Checked

/-! ## Anchors -/

section

open Anchor

/-- Gives the token at a place its anchor, if it is to have one. -/
def anchorAt? (s : Settings) (i : Nat) (d : Draft) : Option Draft := do
  let t ← d.tokens[i]?
  if isSelected s t then
    match t.attrs.get? "id" with
    | some id => return { d with slugs := d.slugs.reserve id }
    | none =>
      let text := title ((d.tokens[i + 1]?.map Token.inner).getD [])
      let (id, slugs) := d.slugs.unique (s.slug text)
      let heading ← d.tokens[i]?
      let tokens ← put? d.tokens i (withId s heading id)
      return { tokens, slugs }
  else return d

/-- Goes through `count` places from `i` on. -/
def anchorFrom? (s : Settings) : (count i : Nat) → Draft → Option Draft
  | 0, _, d => some d
  | count + 1, i, d => (anchorAt? s i d).bind fun d => anchorFrom? s count (i + 1) d

def addAnchors? (s : Settings) (d : Draft) : Option Draft := anchorFrom? s d.tokens.length 0 d

theorem anchorFrom?_eq (s : Settings) (done todo : List Token) (taken : Slug.Registry) :
    anchorFrom? s todo.length done.length { tokens := done ++ todo, slugs := taken }
      = some { tokens := done ++ (addAll s todo taken).1, slugs := (addAll s todo taken).2 } := by
  induction todo generalizing done taken with
  | nil => simp [anchorFrom?, addAll]
  | cons t todo ih =>
    have ht : (done ++ t :: todo)[done.length]? = some t := by simp
    have hnext : (done ++ t :: todo)[done.length + 1]? = todo.head? := by
      simp [List.getElem?_append_right, List.head?_eq_getElem?]
    have hplace : done.length < (done ++ t :: todo).length := by simp
    -- The place moves past `t`, whatever has become of it.
    have hrest (u : Token) (taken : Slug.Registry) :
        anchorFrom? s todo.length (done.length + 1) { tokens := done ++ u :: todo, slugs := taken }
          = some { tokens := done ++ u :: (addAll s todo taken).1
                   slugs := (addAll s todo taken).2 } := by
      have h := ih (done ++ [u]) taken
      simpa using h
    rw [List.length_cons, anchorFrom?, anchorAt?, addAll]
    simp only [ht, hnext, Option.bind_eq_bind, Option.bind_some, put?_eq hplace]
    split
    · cases t.attrs.get? "id" with
      | some id => exact hrest t _
      | none =>
        simp only [Option.pure_def, Option.bind_some, List.set_append_right _ _ (Nat.le_refl _),
          Nat.sub_self, List.set_cons_zero]
        exact hrest _ _
    · exact hrest t taken

theorem addAnchors?_eq (s : Settings) (d : Draft) :
    addAnchors? s d = some ((Anchor.extension s).run d) :=
  anchorFrom?_eq s [] d.tokens d.slugs

end

/-! ## Notes -/

section

open Note

/-- What is left of a text token without one of the marks of a note, if it has it. -/
def textWithout (strip : List Char → Option (List Char)) (t : Token) : Option (List Char) :=
  if t.kind = .text then strip t.content.toList else none

/-- Puts the closing tag in the place of the last token, or behind what is left of it. -/
def closeNote? (ts : List Token) : Option (List Token) := do
  let place ← sub? ts.length 1
  let last ← ts[place]?
  match textWithout endMark.isSuffixOf? last with
  | some (c :: cs) =>
    let ts ← put? ts place (Token.text (String.ofList (c :: cs)))
    return ts ++ [closingTag]
  | _ => put? ts place closingTag

/-- Puts the opening tag in the place of the first token, or in front of what is left of it. -/
def openNote? (kind : NoteKind) (ts : List Token) : Option (List Token) := do
  let first ← ts[0]?
  match textWithout (startMark kind).isPrefixOf? first with
  | some (c :: cs) =>
    let ts ← put? ts 0 (Token.text (String.ofList (c :: cs)))
    putIn? ts 0 (openingTag kind)
  | _ => put? ts 0 (openingTag kind)

def wrapNote? (kind : NoteKind) (ts : List Token) : Option (List Token) := do
  let ts ← closeNote? ts
  let ts ← openNote? kind ts
  if ts[1]?.any (·.kind == .softbreak) then takeOut? ts 1 else some ts

/-- A token whose content is a note, with its children between the tags. -/
def wrapToken? (t : Token) : Option Token :=
  match kindOf? t.content, t.children with
  | some kind, some (c :: cs) =>
    (wrapNote? kind (c :: cs)).map fun children => { t with children := some children }
  | _, _ => some t

def wrapAll? : List Token → Option (List Token)
  | [] => some []
  | t :: ts => do
    let t ← wrapToken? t
    let ts ← wrapAll? ts
    return t :: ts

theorem closeNote?_eq (front : List Token) (last : Token) :
    closeNote? (front ++ [last]) = some (front ++ close last) := by
  have hplace : sub? (front ++ [last]).length 1 = some front.length := by simp [sub?]
  have hlast : (front ++ [last])[front.length]? = some last := by simp
  have hlt : front.length < (front ++ [last]).length := by simp
  simp only [closeNote?, close, textWithout, hplace, hlast, put?_eq hlt, Option.bind_eq_bind,
    Option.bind_some]
  generalize (if last.kind = .text then endMark.isSuffixOf? last.content.toList else none) = rest
  obtain _ | _ | ⟨c, cs⟩ := rest
  · simp
  · simp
  · simp

theorem openNote?_eq (kind : NoteKind) (first : Token) (rest : List Token) :
    openNote? kind (first :: rest) = some (openWith kind first ++ rest) := by
  have hlt : 0 < (first :: rest).length := by simp
  simp only [openNote?, openWith, textWithout, List.getElem?_cons_zero, Option.bind_eq_bind,
    Option.bind_some, put?_eq hlt]
  generalize (if first.kind = .text then (startMark kind).isPrefixOf? first.content.toList
    else none) = left
  obtain _ | _ | ⟨c, cs⟩ := left
  · rfl
  · rfl
  · exact putIn?_eq (Nat.zero_le _) _

theorem takeOut?_second (ts : List Token) :
    (if ts[1]?.any (·.kind == .softbreak) then takeOut? ts 1 else some ts)
      = some (dropSecondBreak ts) := by
  match ts with
  | [] | [_] => rfl
  | t :: next :: ts =>
    have hsecond : (t :: next :: ts)[1]?.any (·.kind == .softbreak) = true
        ↔ next.kind = .softbreak := by simp
    rw [dropSecondBreak, takeOut?_eq (by simp)]
    simp only [hsecond]
    split <;> rfl

theorem wrapNote?_eq (kind : NoteKind) {ts : List Token} (h : ts ≠ []) :
    wrapNote? kind ts = some (wrap kind ts) := by
  have hsplit := List.dropLast_concat_getLast h
  have hlast := List.getLast?_eq_some_getLast h
  have hclose : closeNote? ts = some (ts.dropLast ++ close (ts.getLast h)) := by
    rw [← closeNote?_eq, hsplit]
  have hne : ts.dropLast ++ close (ts.getLast h) ≠ [] := by
    unfold close
    split <;> simp
  obtain ⟨first, rest, hfirst⟩ := List.exists_cons_of_ne_nil hne
  rw [wrapNote?, hclose, wrap, hlast]
  simp only [hfirst, openNote?_eq, takeOut?_second, Option.bind_eq_bind, Option.bind_some]

theorem wrapToken?_eq (t : Token) : wrapToken? t = some (wrapToken t) := by
  unfold wrapToken? wrapToken
  cases kindOf? t.content with
  | none => rfl
  | some kind =>
    obtain ⟨_, _, _, _, _, _, _, children, _, _⟩ := t
    match children with
    | none | some [] => rfl
    | some (c :: cs) =>
      simp only [wrapNote?_eq kind (List.cons_ne_nil c cs)]
      rfl

/-- **No note is without the places its tags are put in.** -/
theorem wrapAll?_eq (ts : List Token) : wrapAll? ts = some (wrapAll ts) := by
  induction ts with
  | nil => rfl
  | cons t ts ih =>
    rw [wrapAll?, wrapToken?_eq, ih]
    rfl

end

end MarkdownPreview.Checked
