import SvelteTypings.Json.Parser
import SvelteTypings.Text.Blank

/-!
# JSON with comments

Configuration files may hold comments and commas after the last element. Both are removed from the
text before it is read as JSON. Neither is looked for inside strings.
-/

namespace SvelteTypings.Json

/-! ## Comments -/

/-- Where a reader of the text is. -/
inductive Place where
  | text
  | string
  /-- Inside a string, after a backslash. -/
  | escape
  | lineComment
  /-- Inside a block comment; `star` says that the character before was a star of it. -/
  | blockComment (star : Bool)

/-- Removes comments. A line comment ends before its newline; a block comment that is not closed
reaches to the end. -/
def stripCommentsFrom : Place → List Char → List Char
  | _, [] => []
  | .string, '\\' :: cs => '\\' :: stripCommentsFrom .escape cs
  | .string, '"' :: cs => '"' :: stripCommentsFrom .text cs
  | .string, c :: cs => c :: stripCommentsFrom .string cs
  | .escape, c :: cs => c :: stripCommentsFrom .string cs
  | .lineComment, '\n' :: cs => '\n' :: stripCommentsFrom .text cs
  | .lineComment, _ :: cs => stripCommentsFrom .lineComment cs
  | .blockComment true, '/' :: cs => stripCommentsFrom .text cs
  | .blockComment _, c :: cs => stripCommentsFrom (.blockComment (c = '*')) cs
  | .text, '/' :: '/' :: cs => stripCommentsFrom .lineComment cs
  | .text, '/' :: '*' :: cs => stripCommentsFrom (.blockComment false) cs
  | .text, '"' :: cs => '"' :: stripCommentsFrom .string cs
  | .text, c :: cs => c :: stripCommentsFrom .text cs

def stripComments (cs : List Char) : List Char := stripCommentsFrom .text cs

/-! ## Trailing commas -/

/-- The text goes on with a closing bracket. -/
def closesNext (cs : List Char) : Bool :=
  match (cs.dropWhile Text.isBlank).head? with
  | some '}' => true
  | some ']' => true
  | _ => false

/-- Removes a comma if a closing bracket is next. -/
def dropTrailingCommasFrom : Place → List Char → List Char
  | _, [] => []
  | .string, '\\' :: cs => '\\' :: dropTrailingCommasFrom .escape cs
  | .string, '"' :: cs => '"' :: dropTrailingCommasFrom .text cs
  | .string, c :: cs => c :: dropTrailingCommasFrom .string cs
  | .escape, c :: cs => c :: dropTrailingCommasFrom .string cs
  | _, '"' :: cs => '"' :: dropTrailingCommasFrom .string cs
  | _, ',' :: cs =>
    if closesNext cs then dropTrailingCommasFrom .text cs
    else ',' :: dropTrailingCommasFrom .text cs
  | _, c :: cs => c :: dropTrailingCommasFrom .text cs

def dropTrailingCommas (cs : List Char) : List Char := dropTrailingCommasFrom .text cs

/-- The JSON text that a text with comments and trailing commas stands for. -/
def plain (s : String) : String := String.ofList (dropTrailingCommas (stripComments s.toList))

/-- The value of a text with comments and trailing commas. -/
def parseCommented? (s : String) : Option Json := parse? (plain s)

end SvelteTypings.Json
