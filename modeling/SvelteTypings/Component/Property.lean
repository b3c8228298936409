import SvelteTypings.Component.Import

/-!
# Properties

A component takes a property for each `export let` at the start of a line. Its type is the one
written, or the type of its initializer if that is a literal. A property with an initializer is
optional.
-/

namespace SvelteTypings.Component

structure Property where
  name : String
  type : String
  optional : Bool
deriving DecidableEq

namespace Property

/-! ## Declarators -/

/-- The sign by which a character changes the depth of brackets. The `>` of an arrow changes
nothing. -/
def bracketStep (prev : Option Char) (c : Char) : Int :=
  match c with
  | '(' | '[' | '{' | '<' => 1
  | ')' | ']' | '}' => -1
  | '>' => if prev = none ∨ prev = some '=' then 0 else -1
  | _ => 0

/-- An `=` is no part of an arrow or a comparison. -/
def isAssignment (prev next : Option Char) : Bool :=
  next ≠ some '>' && next ≠ some '=' && prev ≠ some '!' && prev ≠ some '='

/-- The text before and after the `=` that assigns, outside brackets. -/
def cutAssignment? (prev : Option Char) (depth : Int) : List Char → Option (List Char × List Char)
  | [] => none
  | c :: cs =>
    if c = '=' ∧ depth ≤ 0 ∧ isAssignment prev cs.head? then some ([], cs)
    else
      (cutAssignment? (some c) (depth + bracketStep prev c) cs).map fun (before, after) =>
        (c :: before, after)

/-- A text without blanks at its ends, if anything is left. -/
def nonBlank? (cs : List Char) : Option (List Char) :=
  let cs := Text.trim cs
  if cs.isEmpty then none else some cs

def writtenType? (head : List Char) : Option (List Char) :=
  match Text.trim head with
  | ':' :: cs => nonBlank? cs
  | _ => none

/-- The type and the initializer of what follows the name in `export let name: T = value;`. -/
def declarator (rest : List Char) : Option (List Char) × Option (List Char) :=
  let rest := Text.trimEnd (Text.dropEndWhile (· = ';') (Text.trim rest))
  match cutAssignment? none 0 rest with
  | some (head, value) => (writtenType? head, nonBlank? value)
  | none => (writtenType? rest, none)

/-! ## Literals -/

/-- A number as it is written, with digits first. -/
def isNumberLiteral (value : List Char) : Bool :=
  let digits := match value with
    | '-' :: cs => cs
    | cs => cs
  digits.head?.any Char.isDigit &&
    digits.all fun c => c.isDigit || c = '.' || c = '_' || c = 'e' || c = 'x'

/-- The type of a literal, `any` for anything else. -/
def literalType (value : List Char) : String :=
  let value := Text.trim value
  if value.head? = some '\'' ∨ value.head? = some '"' ∨ value.head? = some '`' then "string"
  else if value = "true".toList ∨ value = "false".toList then "boolean"
  else if isNumberLiteral value then "number"
  else "any"

/-! ## Lines -/

def isNameStart (c : Char) : Bool := c.isAlpha || c = '_' || c = '$'

def isNameRest (c : Char) : Bool := Text.isWord c || c = '$'

/-- The name and the rest of a line that exports a variable. -/
def exported? (line : List Char) : Option (List Char × List Char) := do
  let rest ← afterWord? "export" (line.dropWhile isInlineBlank)
  let rest ← afterWord? "let" rest
  match rest with
  | c :: cs =>
    if isNameStart c then some (c :: cs.takeWhile isNameRest, cs.dropWhile isNameRest) else none
  | [] => none

def ofLine? (line : List Char) : Option Property :=
  (exported? line).map fun (name, rest) =>
    let (type, value) := declarator rest
    { name := String.ofList name
      type := match type, value with
        | some type, _ => String.ofList type
        | none, some value => literalType value
        | none, none => "any"
      optional := value.isSome }

end Property

def properties (script : List Char) : List Property :=
  (Text.lines script).filterMap Property.ofLine?

end SvelteTypings.Component
