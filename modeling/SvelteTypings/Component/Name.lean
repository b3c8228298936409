import SvelteTypings.Path.Basic

/-!
# The name of a component

The class of a component is named after its file: the parts of the name between characters that are
no letters or digits, each with a capital first letter.
-/

namespace SvelteTypings.Component

/-- The parts of a text between characters that are no ASCII letters or digits, each capitalized.
`atStart` says that the next character begins a part. -/
def pascalFrom (atStart : Bool) : List Char → List Char
  | [] => []
  | c :: cs =>
    if c.isAlphanum then (if atStart then c.toUpper else c) :: pascalFrom false cs
    else pascalFrom true cs

/-- The name before the first dot of a file name, empty if there is no name that is UTF-8. -/
def fileStem (p : Path) : List Char :=
  match p.fileName?.bind Text.decode? with
  | some name => name.toList.takeWhile (· ≠ '.')
  | none => []

/-- The name of the class of a component. It never starts with a digit. -/
def className (p : Path) : String :=
  match pascalFrom true (fileStem p) with
  | [] => "Component"
  | c :: cs => String.ofList (if c.isDigit then '_' :: c :: cs else c :: cs)

end SvelteTypings.Component
