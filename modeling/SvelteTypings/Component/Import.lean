import SvelteTypings.Text.Blank
import SvelteTypings.Text.Lines
import SvelteTypings.Text.Search
import SvelteTypings.Text.Word

/-!
# Imports of an instance script

An instance script becomes the body of a function, where imports cannot stand. Its import
declarations are told by their lines and moved out; from the other lines `export` is dropped where
it stands before a declaration.
-/

namespace SvelteTypings.Component

def begins (pat : String) (cs : List Char) : Bool := pat.toList.isPrefixOf cs

/-- A line without the blanks around it begins an import declaration. A call `import(...)` does
not. -/
def beginsImport (line : List Char) : Bool :=
  (begins "import " line || begins "import\x7b" line || begins "import\"" line ||
    begins "import'" line) && !begins "import(" line

/-- An import declaration ends with `;` or with the quote of its module. -/
def isWholeImport (statement : List Char) : Bool :=
  match (Text.trimEnd statement).getLast? with
  | some ';' => true
  | some '"' => true
  | some '\'' => true
  | _ => false

/-- An instance script in two parts. -/
structure Hoisted where
  imports : List (List Char)
  rest : List (List Char)

def Hoisted.consImport (statement : List Char) (h : Hoisted) : Hoisted :=
  { h with imports := statement :: h.imports }

def Hoisted.consLine (line : List Char) (h : Hoisted) : Hoisted :=
  { h with rest := line :: h.rest }

/-- Sorts lines into imports and others. `unfinished` is an import whose last line has not come. -/
def hoistFrom (unfinished : Option (List Char)) : List (List Char) → Hoisted
  | [] => ⟨unfinished.toList, []⟩
  | line :: lines =>
    match unfinished with
    | some statement =>
      let statement := statement ++ '\n' :: Text.trimEnd line
      if isWholeImport statement then (hoistFrom none lines).consImport statement
      else hoistFrom (some statement) lines
    | none =>
      let statement := Text.trim line
      if beginsImport statement then
        if isWholeImport statement then (hoistFrom none lines).consImport statement
        else hoistFrom (some statement) lines
      else (hoistFrom none lines).consLine line

def hoist (script : List Char) : Hoisted := hoistFrom none (Text.lines script)

/-! ## Dropping `export` -/

def isInlineBlank (c : Char) : Bool := c = ' ' || c = '\t'

/-- What follows a word and at least one blank. -/
def afterWord? (word : String) (cs : List Char) : Option (List Char) :=
  match Text.afterStart? word.toList cs with
  | some (c :: cs) => if isInlineBlank c then some (cs.dropWhile isInlineBlank) else none
  | _ => none

/-- The words that begin a declaration after `export`. -/
def declarationWords : List String := ["let", "const", "var", "function", "class", "async"]

/-- The text begins with the given word, and the word ends there. -/
def beginsWord (cs : List Char) (word : String) : Bool :=
  match Text.afterStart? word.toList cs with
  | some (c :: _) => !Text.isWord c
  | some [] => true
  | none => false

/-- A line without the `export` in front of a declaration. -/
def dropExport (line : List Char) : List Char :=
  let start := line.takeWhile isInlineBlank
  match afterWord? "export" (line.dropWhile isInlineBlank) with
  | some rest => if declarationWords.any (beginsWord rest) then start ++ rest else line
  | none => line

/-- The lines that are no imports, without `export`, each with a newline after it. -/
def Hoisted.body (h : Hoisted) : List Char := h.rest.flatMap fun line => dropExport line ++ ['\n']

end SvelteTypings.Component
