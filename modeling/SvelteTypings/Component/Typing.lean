import SvelteTypings.Component.Name
import SvelteTypings.Component.Parts
import SvelteTypings.Failure
import SvelteTypings.Text.Writer

/-!
# The typing of a component

The script that stands for a component in a program. It holds the scripts of the component and
declares interfaces for its properties, events and slots, and a class that is made of them.
-/

namespace SvelteTypings

/-- Makes a script of the source of a component. The path names the component and is not read. -/
abbrev Transformer := String → Path → Except Failure String

namespace Component

/-- A text without the newlines at both ends. -/
def trimNewlines (s : String) : List Char :=
  Text.dropEndWhile (· = '\n') (s.toList.dropWhile (· = '\n'))

/-- A character that an identifier can start with. -/
def isIdentStart (c : Char) : Bool := c.isAlpha || c = '_' || c = '$'

/-- A character that an identifier can go on with. -/
def isIdentRest (c : Char) : Bool := isIdentStart c || c.isDigit

/-- The empty text counts as an identifier here. -/
def isIdentifier : List Char → Bool
  | [] => true
  | c :: cs => isIdentStart c && cs.all isIdentRest

/-- The key of a slot: its name, in quotes unless it is an identifier. -/
def slotKey (name : String) : String :=
  if isIdentifier name.toList then name else "\"" ++ name ++ "\""

def propertyLine (p : Property) : String :=
  p.name ++ (if p.optional then "?" else "") ++ ": " ++ p.type ++ ";"

def eventLine (e : Event) : String := e.name ++ ": CustomEvent<" ++ e.type ++ ">;"

/-- The members of the interface of events. Events without types may be anything. -/
def eventLines : Option (List Event) → List String
  | some events => events.map eventLine
  | none => ["[evt: string]: CustomEvent<any>;"]

def slotLine (s : Slot) : String :=
  if s.props.isEmpty then slotKey s.name ++ ": \x7b\x7d;"
  else
    slotKey s.name ++ ": \x7b " ++ String.intercalate "; " (s.props.map (· ++ ": any")) ++ " \x7d;"

/-- Writes an interface with the given members, and an empty line. -/
def writeInterface (name : String) (members : List String) (w : Text.Writer) : Text.Writer :=
  let w := w.addLine ("export interface " ++ name ++ " \x7b")
  (w.indent.addLines members).dedent.addLine "\x7d" |>.addLine ""

/-- Writes the imports and the module script, which stand at the top. -/
def writeHead (p : Parts) (w : Text.Writer) : Text.Writer :=
  let w := w.addLine "import \x7b SvelteComponentTyped \x7d from \"svelte\";"
  let w := w.addLines p.imports
  let w := match p.moduleScript with
    | some script => w.addBlock (trimNewlines script)
    | none => w
  w.addLine ""

/-- Writes the instance script as the body of a function that returns the properties. -/
def writeBody (p : Parts) (w : Text.Writer) : Text.Writer :=
  let names := String.intercalate ", " (p.properties.map (·.name))
  let w := (w.addLine "function render() \x7b").indent.addBlock (trimNewlines p.body)
  let w := w.addLine ("return \x7b props: \x7b " ++ names ++ " \x7d \x7d;")
  w.dedent.addLine "\x7d" |>.addLine ""

def writeClass (name : String) (w : Text.Writer) : Text.Writer :=
  w.addLine ("export default class " ++ name ++ " extends SvelteComponentTyped<" ++ name ++
    "Props, " ++ name ++ "Events, " ++ name ++ "Slots> \x7b") |>.addLine "\x7d"

def render (name : String) (p : Parts) : String :=
  let w := writeBody p (writeHead p .empty)
  let w := writeInterface (name ++ "Props") (p.properties.map propertyLine) w
  let w := writeInterface (name ++ "Events") (eventLines p.events) w
  let w := writeInterface (name ++ "Slots") (p.slots.map slotLine) w
  (writeClass name w).text

/-- The script that stands for a component. -/
def typing : Transformer := fun source path =>
  match parts source with
  | .ok p => .ok (render (className path) p)
  | .error e => .error (.transform path e.message)

end Component

end SvelteTypings
