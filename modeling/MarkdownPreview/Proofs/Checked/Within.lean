import MarkdownPreview.Proofs.Checked.Partners
import MarkdownPreview.Proofs.Checked.Text
import MarkdownPreview.Proofs.Veil.Comments

/-!
# Comments within one block, with every place checked

The text of a token is sliced at the marks of comments. A comment from one text to a later one is
found by the places of the two tokens; what lies between them goes, and then the search starts over.
The first of the two places is still that of the token in which the comment starts when its text is
cut, and so is the second, for nothing is taken out before.
-/

set_option autoImplicit false

namespace MarkdownPreview.Checked

open Text Comment

/-! ## Texts -/

/-- The text before a comment that is left open. -/
def beforeOpen? (text : String) : Option (Option String) :=
  let kept := (remove text).toList
  match find? startMark kept with
  | none => some none
  | some n => (takeBytes? n kept).map fun before => some (String.ofList before)

/-- The text after the first end of a comment. -/
def afterClose? (text : String) : Option (Option String) :=
  match find? endMark text.toList with
  | none => some none
  | some n => (dropBytes? (n + byteSize endMark) text.toList).map fun after =>
      some (String.ofList after)

theorem beforeOpen?_eq (text : String) : beforeOpen? text = some (beforeDangling? text) := by
  rw [beforeOpen?, beforeDangling?]
  dsimp only
  rw [find?_eq]
  cases hcut : cut? startMark (remove text).toList with
  | none => rfl
  | some cut => simp only [Option.map_some, takeBytes?_find? hcut]

theorem afterClose?_eq (text : String) : afterClose? text = some (afterEnd? text) := by
  rw [afterClose?, afterEnd?, find?_eq]
  cases hcut : cut? endMark text.toList with
  | none => rfl
  | some cut => simp only [Option.map_some, dropBytes?_find? hcut]

/-! ## Searching a level -/

/-- The place of the first token that passes a test. -/
def position? (test : Token → Option Bool) : List Token → Option (Option Nat)
  | [] => some none
  | t :: ts => do
    let passes ← test t
    if passes then return some 0 else (position? test ts).map (Option.map (· + 1))

/-- The first place of `count` ones from `i` on whose token passes a test. -/
def findAt? (test : Token → Bool) (ts : List Token) : (count i : Nat) → Option (Option Nat)
  | 0, _ => some none
  | count + 1, i => do
    let t ← ts[i]?
    if test t then return some i else findAt? test ts count (i + 1)

theorem position?_eq {test : Token → Option Bool} {p : Token → Bool} (h : ∀ t, test t = some (p t))
    (ts : List Token) : position? test ts = some (placeFrom? p 0 ts) := by
  have hfind : position? test ts = some (ts.findIdx? p) := by
    induction ts with
    | nil => rfl
    | cons t ts ih =>
      rw [position?, h t, ih, List.findIdx?_cons]
      cases p t <;> rfl
  rw [hfind, placeFrom?]
  simp

theorem findAt?_eq (test : Token → Bool) (ts : List Token) (i : Nat) :
    findAt? test ts (ts.length - i) i = some (placeFrom? test i ts) := by
  induction hcount : ts.length - i generalizing i with
  | zero =>
    rw [placeFrom?, List.drop_eq_nil_of_le (by omega)]
    rfl
  | succ count ih =>
    have hlt : i < ts.length := by omega
    rw [findAt?, List.getElem?_eq_getElem hlt, ih (i + 1) (by omega), placeFrom?, placeFrom?,
      List.drop_eq_getElem_cons hlt, List.findIdx?_cons]
    by_cases htest : test ts[i] = true
    · simp [htest]
    · cases (ts.drop (i + 1)).findIdx? test with
      | none => simp [htest]
      | some k => simp [htest, Nat.add_assoc, Nat.add_comm 1 i]

/-! ## A comment from one text to a later one -/

def opens? (t : Token) : Option Bool :=
  if t.kind = .text then (beforeOpen? (readable t)).map Option.isSome else some false

theorem opens?_eq (t : Token) : opens? t = some (opensComment t) := by
  rw [opens?, opensComment, beforeOpen?_eq, isDangling]
  by_cases hk : t.kind = .text
  · simp [hk]
  · simp [hk]

/-- Cuts the texts at places `i` and `j`, at which a comment starts and ends. -/
def cutBoth? (ts : List Token) (i j : Nat) : Option (List Token) := do
  let opening ← ts[i]?
  let closing ← ts[j]?
  let head? ← beforeOpen? (readable opening)
  let tail? ← afterClose? (readable closing)
  match head?, tail? with
  | some head, some tail =>
    let ts ← put? ts i { opening with content := head }
    let closing ← ts[j]?
    put? ts j { closing with content := tail }
  | _, _ => return ts

/-- Takes out the first comment that starts in one text and ends in a later one, if there is one. -/
def closeUpFirst? (ts : List Token) : Option (Option (List Token)) := do
  match ← position? opens? ts with
  | none => return none
  | some i =>
    match ← findAt? closesComment ts (ts.length - (i + 1)) (i + 1) with
    | none => return none
    | some j =>
      let ts ← cutBoth? ts i j
      let places ← removable? ts (i + 1) j
      (takeOutEach? places ts).map some

variable {ts : List Token} {i j : Nat}

theorem beforeDangling?_of_opensComment {t : Token} (h : opensComment t = true) :
    ∃ head, beforeDangling? (readable t) = some head := by
  rw [opensComment, Bool.and_eq_true] at h
  exact Option.isSome_iff_exists.mp h.2

theorem afterEnd?_of_closesComment {t : Token} (h : closesComment t = true) :
    ∃ tail, afterEnd? (readable t) = some tail := by
  rw [closesComment, Bool.and_eq_true] at h
  rw [← Option.isSome_iff_exists, afterEnd?, Option.isSome_map]
  exact h.2

/-- Putting a token back with its text cut. -/
theorem put?_cut (cut : Token → String) (text : String) {t : Token} (ht : ts[i]? = some t)
    (hcut : cut t = text) :
    put? ts i { t with content := text } = some (ts.modify i fun t => { t with content := cut t }) := by
  have hset := set_eq_modify (fun t => { t with content := cut t }) ht
  rw [put?_eq (List.getElem?_eq_some_iff.mp ht).1, ← hcut, hset]

theorem cutBoth?_eq (hi : placeFrom? opensComment 0 ts = some i)
    (hj : placeFrom? closesComment (i + 1) ts = some j) :
    cutBoth? ts i j = some ((ts.modify i fun t => { t with content := headOf (readable t) }).modify j
      fun t => { t with content := tailOf (readable t) }) := by
  obtain ⟨t, ht, hopens, -⟩ := placeFrom?_some hi
  obtain ⟨u, hu, hcloses, hij⟩ := placeFrom?_some hj
  obtain ⟨head, hhead⟩ := beforeDangling?_of_opensComment hopens
  obtain ⟨tail, htail⟩ := afterEnd?_of_closesComment hcloses
  have hu' : (ts.modify i fun t => { t with content := headOf (readable t) })[j]? = some u := by
    have hne : i ≠ j := by omega
    simp [hne, hu]
  have hput := put?_cut (fun t => headOf (readable t)) head ht (by rw [headOf, hhead]; rfl)
  have hput' := put?_cut (fun t => tailOf (readable t)) tail hu' (by rw [tailOf, htail]; rfl)
  simp only [cutBoth?, ht, hu, beforeOpen?_eq, afterClose?_eq, hhead, htail, Option.bind_eq_bind,
    Option.bind_some, hput, hu', hput']

theorem closeUpFirst?_eq (ts : List Token) : closeUpFirst? ts = some (closeUpOnce? ts) := by
  rw [closeUpFirst?, position?_eq opens?_eq, closeUpOnce?]
  simp only [Option.bind_eq_bind, Option.bind_some]
  cases hi : placeFrom? opensComment 0 ts with
  | none => rfl
  | some i =>
    simp only [findAt?_eq, Option.bind_some]
    cases hj : placeFrom? closesComment (i + 1) ts with
    | none => rfl
    | some j =>
      simp only [cutBoth?_eq hi hj, removable?_eq, takeOutEach?_doomed, Option.bind_some]
      rfl

/-- Takes comments out until there is none left, within `steps` searches. Returns whether there was
one, and what is left. -/
def closeUpLoop? : (steps : Nat) → (found : Bool) → List Token → Option (Bool × List Token)
  | 0, _, _ => none
  | steps + 1, found, ts => do
    match ← closeUpFirst? ts with
    | none => return (found, ts)
    | some ts => closeUpLoop? steps true ts

def closeUp? (ts : List Token) : Option (Bool × List Token) :=
  closeUpLoop? (contentSize ts + 1) false ts

/-- Both bounds suffice: that of the loop, which counts its last search too, and that of the
library. -/
theorem closeUpLoop?_eq {steps bound : Nat} (found : Bool) {ts : List Token}
    (hsteps : contentSize ts < steps) (hbound : contentSize ts ≤ bound) :
    closeUpLoop? steps found ts
      = some (found || (closeUpOnce? ts).isSome, closeUpIn bound ts) := by
  induction steps generalizing found bound ts with
  | zero => exact absurd hsteps (Nat.not_lt_zero _)
  | succ steps ih =>
    rw [closeUpLoop?, closeUpFirst?_eq]
    cases honce : closeUpOnce? ts with
    | none =>
      have hin : closeUpIn bound ts = ts := by
        cases bound with
        | zero => rfl
        | succ bound => rw [closeUpIn, honce]
      simp [hin]
    | some us =>
      have hless := contentSize_closeUpOnce?_lt honce
      obtain ⟨bound, rfl⟩ := Nat.exists_eq_add_one.mpr (show 0 < bound by omega)
      have hrest : closeUpLoop? steps true us = some (true || _, closeUpIn bound us) :=
        ih true (by omega) (by omega)
      simp only [Option.bind_eq_bind, Option.bind_some, hrest, closeUpIn, honce]
      simp

theorem closeUp?_eq (ts : List Token) :
    closeUp? ts = some ((closeUpOnce? ts).isSome, closeUp ts) :=
  closeUpLoop?_eq false (Nat.lt_succ_self _) le_rfl

/-- A block's token without the comments between its texts. -/
def closeUpToken? (t : Token) : Option Token :=
  match t.children with
  | none => some t
  | some ts => do
    let (found, ts) ← closeUp? ts
    if found then return { t with content := remove (readable t), children := some ts }
    else return { t with children := some ts }

theorem closeUpToken?_eq (t : Token) : closeUpToken? t = some (closeUpToken t) := by
  unfold closeUpToken? closeUpToken
  obtain ⟨kind, tag, nesting, attrs, content, info, markup, children, block, hidden⟩ := t
  cases children with
  | none => rfl
  | some ts =>
    simp only [closeUp?_eq, Option.bind_eq_bind, Option.bind_some]
    cases honce : closeUpOnce? ts with
    | some us => rfl
    | none =>
      -- Nothing has been taken out of the children.
      have hin : closeUp ts = ts := by
        rw [closeUp]
        cases contentSize ts with
        | zero => rfl
        | succ bound => rw [closeUpIn, honce]
      simp [hin]

/-! ## One end of a comment -/

/-- Takes tokens that show nothing out of the start of a level, at most `steps` of them. -/
def dropBlank? : (steps : Nat) → List Token → Option (List Token)
  | 0, _ => none
  | steps + 1, ts =>
    if ts.head?.any showsNothing then (takeOut? ts 0).bind (dropBlank? steps) else some ts

theorem dropBlank?_eq {steps : Nat} {ts : List Token} (h : ts.length < steps) :
    dropBlank? steps ts = some (ts.dropWhile showsNothing) := by
  induction steps generalizing ts with
  | zero => exact absurd h (Nat.not_lt_zero _)
  | succ steps ih =>
    rw [dropBlank?]
    cases ts with
    | nil => rfl
    | cons t ts =>
      rw [List.dropWhile_cons]
      by_cases hblank : showsNothing t = true
      · rw [List.length_cons] at h
        have hout : takeOut? (t :: ts) 0 = some ts := takeOut?_eq (by simp)
        have hrest : dropBlank? steps ts = some (ts.dropWhile showsNothing) := ih (by omega)
        simp [hblank, hout, hrest]
      · simp [hblank]

/-- The children of a block up to the comment that is left open in them. -/
def childrenBefore? (ts : List Token) : Option (List Token) := do
  match ← position? opens? ts with
  | none => return ts
  | some i =>
    let t ← ts[i]?
    let head? ← beforeOpen? (readable t)
    let ts ← match head? with
      | some head => put? ts i { t with content := trimmedEnd head }
      | none => some ts
    keepPaired? (dropEndWhile showsNothing (ts.take (i + 1)))

/-- The children of a block from the end of a comment on. -/
def childrenAfter? (ts : List Token) : Option (List Token) := do
  match ← position? (fun t => some (closesComment t)) ts with
  | none => return ts
  | some i =>
    let t ← ts[i]?
    let tail? ← afterClose? (readable t)
    let ts ← match tail? with
      | some tail => put? ts i { t with content := trimmedStart tail }
      | none => some ts
    let (_, ts) ← exchange? ts 0 i []
    let ts ← dropBlank? (ts.length + 1) ts
    keepPaired? ts

theorem childrenBefore?_eq (ts : List Token) : childrenBefore? ts = some (childrenBefore ts) := by
  rw [childrenBefore?, position?_eq opens?_eq, childrenBefore]
  simp only [Option.bind_eq_bind, Option.bind_some]
  cases hi : placeFrom? opensComment 0 ts with
  | none => rfl
  | some i =>
    obtain ⟨t, ht, hopens, -⟩ := placeFrom?_some hi
    obtain ⟨head, hhead⟩ := beforeDangling?_of_opensComment hopens
    have hput := put?_cut (fun t => trimmedEnd (headOf (readable t))) (trimmedEnd head) ht
      (by rw [headOf, hhead]; rfl)
    simp only [ht, beforeOpen?_eq, hhead, hput, keepPaired?_eq, Option.bind_some]

theorem childrenAfter?_eq (ts : List Token) : childrenAfter? ts = some (childrenAfter ts) := by
  rw [childrenAfter?, position?_eq (fun _ => rfl), childrenAfter]
  simp only [Option.bind_eq_bind, Option.bind_some]
  cases hi : placeFrom? closesComment 0 ts with
  | none => rfl
  | some i =>
    obtain ⟨t, ht, hcloses, -⟩ := placeFrom?_some hi
    obtain ⟨tail, htail⟩ := afterEnd?_of_closesComment hcloses
    have hput := put?_cut (fun t => trimmedStart (tailOf (readable t))) (trimmedStart tail) ht
      (by rw [tailOf, htail]; rfl)
    have hlt := (List.getElem?_eq_some_iff.mp ht).1
    simp only [ht, afterClose?_eq, htail, hput, Option.bind_some]
    rw [exchange?_eq (Nat.zero_le _) (by rw [List.length_modify]; omega)]
    simp only [Option.bind_some, dropBlank?_eq (Nat.lt_succ_self _), keepPaired?_eq, List.take_zero,
      List.nil_append]

end MarkdownPreview.Checked
