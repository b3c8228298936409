import SvelteTypings.Component.Property

/-!
# Events

The events of a component and the types of what they carry are read from the type of its event
dispatcher, `createEventDispatcher<{ name: T; ... }>`. Of several mentions of the dispatcher the
first with such a type counts.
-/

namespace SvelteTypings.Component

structure Event where
  name : String
  type : String
deriving DecidableEq

namespace Event

def dispatcher : List Char := "createEventDispatcher".toList

/-! ## The type literal -/

/-- The text up to the brace that closes `depth` open ones. Only braces count. -/
def untilClosed? (depth : Nat) : List Char → Option (List Char)
  | [] => none
  | c :: cs =>
    if c = '{' then (untilClosed? (depth + 1) cs).map (c :: ·)
    else if c = '}' then
      match depth with
      | 0 | 1 => some []
      | depth + 2 => (untilClosed? (depth + 1) cs).map (c :: ·)
    else (untilClosed? depth cs).map (c :: ·)

/-- The text between the braces at the start of a text. -/
def braced? : List Char → Option (List Char)
  | '{' :: cs => untilClosed? 1 cs
  | _ => none

/-- The members of the type literal that follows a mention of the dispatcher. -/
def literalAfter? (cs : List Char) : Option (List Char) :=
  match Text.trimStart cs with
  | '<' :: cs => braced? (Text.trimStart cs)
  | _ => none

def literal? : List Char → Option (List Char)
  | [] => none
  | c :: cs =>
    match (Text.afterStart? dispatcher (c :: cs)).bind literalAfter? with
    | some members => some members
    | none => literal? cs

/-! ## Members -/

def isSeparator (c : Char) : Bool := c = ';' || c = ',' || c = '\n'

/-- Puts a character in front of the first part. -/
def consPart (c : Char) : List (List Char) → List (List Char)
  | [] => [[c]]
  | p :: ps => (c :: p) :: ps

/-- The parts of a text between separators outside brackets. -/
def splitMembers (prev : Char) (depth : Int) : List Char → List (List Char)
  | [] => [[]]
  | c :: cs =>
    if depth = 0 ∧ isSeparator c then [] :: splitMembers c depth cs
    else consPart c (splitMembers c (depth + Property.bracketStep (some prev) c) cs)

def isQuote (c : Char) : Bool := c = '"' || c = '\''

/-- The event that a member `key: T` declares. The key may be quoted and marked as optional. -/
def ofMember? (member : List Char) : Option Event := do
  let (key, type) ← Text.cut? [':'] member
  let key := Text.dropEndWhile isQuote ((Text.trim key).dropWhile isQuote)
  let key := Text.dropEndWhile (· = '?') key
  if key.isEmpty then none
  else some ⟨String.ofList key, String.ofList (Text.trim type)⟩

end Event

/-- The events of a component with the given instance script, `none` if they have no types. -/
def events? (script : List Char) : Option (List Event) :=
  (Event.literal? script).map fun members =>
    ((Event.splitMembers ' ' 0 members).filterMap Property.nonBlank?).filterMap Event.ofMember?

end SvelteTypings.Component
