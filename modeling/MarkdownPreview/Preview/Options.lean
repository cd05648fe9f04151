import MarkdownPreview.Json.Basic
import MarkdownPreview.Preview.Rule

/-!
# Options of a preview

Options say how Markdown is read and HTML is written, and which rules are enabled: a preset, or a
list of names. They are written as a JSON object (`toText`) and read from one (`ofText?`), where a
member that is missing has its default, members with other names are passed over, and a known
member must not come twice. They are also read from an array of the values in order, which may stop
early.

A name of a rule or a preset is a string, or an object whose only member has that name and is
`null`. -/

set_option autoImplicit false

namespace MarkdownPreview

/-- Which rules are enabled. -/
inductive Selection where
  /-- All but spacing. -/
  | standard
  | all
  | named (rules : List Rule)
  deriving DecidableEq, Repr

namespace Selection

/-- Whether a selection enables a rule. -/
def enables : Selection → Rule → Bool
  | .standard, r => r != .spacing
  | .all, _ => true
  | .named rules, r => rules.contains r

/-- The rules a selection enables, in the order in which they run. Order and repetition in a list of
names mean nothing. -/
def rules (s : Selection) : List Rule := Rule.all.filter s.enables

def nameOf? : Json → Option String
  | .string text? => text?
  | .object [(name?, .null)] => name?
  | _ => none

def ofJson? : Json → Option Selection
  | .array items => (items.mapM fun item => (nameOf? item).bind Rule.ofName?).map .named
  | json =>
    match nameOf? json with
    | some "default" => some .standard
    | some "all" => some .all
    | _ => none

/-- A name as JSON text. The names of rules and presets need no escapes. -/
def quoted (name : String) : String := "\"" ++ name ++ "\""

def toText : Selection → String
  | .standard => quoted "default"
  | .all => quoted "all"
  | .named rules => "[" ++ String.intercalate "," (rules.map fun r => quoted r.name) ++ "]"

end Selection

/-- The options of a preview. -/
structure Options where
  /-- Parse HTML in the source. -/
  html : Bool := false
  /-- Write soft breaks as line breaks. -/
  breaks : Bool := false
  /-- Make links of bare addresses. -/
  linkify : Bool := false
  /-- Close empty tags with a slash. -/
  xhtml : Bool := false
  /-- Read raised text between carets. -/
  superscript : Bool := false
  rules : Selection := .standard
  deriving DecidableEq, Repr

namespace Options

def flag? : Json → Option Bool
  | .bool b => some b
  | _ => none

/-- The member of a name read by `read?`, or the default if there is none. -/
def member? {α : Type} (members : List (Option String × Json)) (name : String)
    (read? : Json → Option α) (standard : α) : Option α :=
  match members.filter fun m => m.1 == some name with
  | [] => some standard
  | [(_, value)] => read? value
  | _ => none

def ofMembers? (ms : List (Option String × Json)) : Option Options :=
  if ms.any fun m => m.1.isNone then none
  else do
    return {
      html := ← member? ms "html" flag? false
      breaks := ← member? ms "breaks" flag? false
      linkify := ← member? ms "linkify" flag? false
      xhtml := ← member? ms "xhtmlOut" flag? false
      superscript := ← member? ms "superscript" flag? false
      rules := ← member? ms "rules" Selection.ofJson? .standard }

/-- Reads an item of an array, or takes the default if the array stops before it. -/
def item? {α : Type} (items : List Json) (i : Nat) (read? : Json → Option α) (standard : α) :
    Option α :=
  match items[i]? with
  | some value => read? value
  | none => some standard

def ofItems? (items : List Json) : Option Options :=
  if items.length > 6 then none
  else do
    return {
      html := ← item? items 0 flag? false
      breaks := ← item? items 1 flag? false
      linkify := ← item? items 2 flag? false
      xhtml := ← item? items 3 flag? false
      superscript := ← item? items 4 flag? false
      rules := ← item? items 5 Selection.ofJson? .standard }

def ofText? (text : String) : Option Options :=
  match Json.ofText? text with
  | some (.object members) => ofMembers? members
  | some (.array items) => ofItems? items
  | _ => none

def flagText (b : Bool) : String := if b then "true" else "false"

def memberText (name value : String) : String := Selection.quoted name ++ ":" ++ value

def toText (o : Options) : String :=
  "\x7b" ++ String.intercalate "," [
    memberText "html" (flagText o.html),
    memberText "breaks" (flagText o.breaks),
    memberText "linkify" (flagText o.linkify),
    memberText "xhtmlOut" (flagText o.xhtml),
    memberText "superscript" (flagText o.superscript),
    memberText "rules" o.rules.toText] ++ "\x7d"

end Options

end MarkdownPreview
