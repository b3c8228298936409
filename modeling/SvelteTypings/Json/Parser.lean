import SvelteTypings.Json.Token

/-!
# Reading JSON values

A value is read by one step per token over the containers that are still open, the innermost one
first. At most 127 containers may be open at a time.

A value that nobody asks for is only *skimmed*: its brackets and separators must be right, but it
may be nested to any depth and hold strings and numbers that have no value.
-/

namespace SvelteTypings.Json

/-- How closely a value is read. -/
inductive Mode where
  /-- Every part must have a value, and no more than `room` containers may be open. -/
  | strict (room : Nat)
  | skim

/-- How many containers may be open at a time. -/
def maxDepth : Nat := 127

/-- A container that is still open: the items so far, last one first, or the members so far and the
key of the next. -/
inductive Open where
  | array (items : List Json)
  | object (members : Members) (key : String)

/-- What may come next. -/
inductive State where
  | value (stack : List Open)
  | valueOrEnd (stack : List Open)
  | nextKey (members : Members) (stack : List Open)
  | keyOrEnd (stack : List Open)
  | colon (members : Members) (key : String) (stack : List Open)
  | commaOrEnd (top : Open) (stack : List Open)
  | done (v : Json)

/-- The state after a whole value. -/
def State.give (v : Json) : List Open → State
  | [] => .done v
  | .array items :: stack => .commaOrEnd (.array (v :: items)) stack
  | .object members key :: stack => .commaOrEnd (.object (members.set key v) "") stack

def Mode.mayOpen (mode : Mode) (stack : List Open) : Bool :=
  match mode with
  | .strict room => stack.length < room
  | .skim => true

def Mode.text? (mode : Mode) (text : Option String) : Option String :=
  match mode with
  | .strict _ => text
  | .skim => some (text.getD "")

def Mode.number? (mode : Mode) (value : Option Json) : Option Json :=
  match mode with
  | .strict _ => value
  | .skim => some (value.getD .null)

/-- Takes the first token of a value. -/
def startValue (mode : Mode) (stack : List Open) : Token → Option State
  | .null => some (.give .null stack)
  | .bool b => some (.give (.bool b) stack)
  | .number value => (mode.number? value).map fun v => .give v stack
  | .string text => (mode.text? text).map fun s => .give (.string s) stack
  | .openBracket => if mode.mayOpen stack then some (.valueOrEnd stack) else none
  | .openBrace => if mode.mayOpen stack then some (.keyOrEnd stack) else none
  | _ => none

/-- Takes the next token into account. -/
def State.step (mode : Mode) : State → Token → Option State
  | .value stack, t => startValue mode stack t
  | .valueOrEnd stack, .closeBracket => some (.give (.array []) stack)
  | .valueOrEnd stack, t => startValue mode (.array [] :: stack) t
  | .nextKey members stack, .string text => (mode.text? text).map fun k => .colon members k stack
  | .keyOrEnd stack, .closeBrace => some (.give (.object []) stack)
  | .keyOrEnd stack, .string text => (mode.text? text).map fun k => .colon [] k stack
  | .colon members key stack, .colon => some (.value (.object members key :: stack))
  | .commaOrEnd (.array items) stack, .comma => some (.value (.array items :: stack))
  | .commaOrEnd (.array items) stack, .closeBracket => some (.give (.array items.reverse) stack)
  | .commaOrEnd (.object members _) stack, .comma => some (.nextKey members stack)
  | .commaOrEnd (.object members _) stack, .closeBrace => some (.give (.object members) stack)
  | _, _ => none

/-- Reads tokens until a value is whole, and gives the tokens after it. -/
def run (mode : Mode) : List Token → State → Option (Json × List Token)
  | ts, .done v => some (v, ts)
  | t :: ts, s => (s.step mode t).bind (run mode ts)
  | [], _ => none

/-- Reads one value and gives the tokens after it. -/
def readValue (mode : Mode) (ts : List Token) : Option (Json × List Token) :=
  run mode ts (.value [])

def parse? (s : String) : Option Json := do
  let ts ← tokens s
  let (v, rest) ← readValue (.strict maxDepth) ts
  if rest.isEmpty then some v else none

end SvelteTypings.Json
