import MarkdownPreview.Slug.Basic

/-!
# Keeping slugs apart

Two headings with one text would have one slug. A `Registry` holds the names already taken in a
document. `unique` gives a slug its first free variant, `slug`, `slug-1`, `slug-2` and so on, and
takes it; `reserve` takes a name that the document brought along.

The search for a free variant needs no more steps than there are names taken: the variants of a slug
differ from each other, so each name can be in the way only once.
-/

set_option autoImplicit false

namespace MarkdownPreview.Slug

/-- The names taken so far, newest first. -/
structure Registry where
  taken : List String := []
  deriving Repr, DecidableEq

/-- The variant of a slug with number `k`; number 0 is the slug itself. -/
def variant (slug : String) : Nat → String
  | 0 => slug
  | k + 1 => slug ++ "-" ++ toString (k + 1)

/-- The first variant of a slug from number `k` on that is not taken, looking at `steps` of them
and settling for the one after. -/
def firstFree (taken : List String) (slug : String) : (steps k : Nat) → String
  | 0, k => variant slug k
  | steps + 1, k =>
    if taken.contains (variant slug k) then firstFree taken slug steps (k + 1) else variant slug k

namespace Registry

def reserve (r : Registry) (name : String) : Registry := ⟨name :: r.taken⟩

/-- The first free variant of a slug, and the registry with it taken. -/
def unique (r : Registry) (slug : String) : String × Registry :=
  let free := firstFree r.taken slug r.taken.length 0
  (free, r.reserve free)

end Registry

end MarkdownPreview.Slug
