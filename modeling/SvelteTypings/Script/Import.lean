import SvelteTypings.Script.Statement

/-!
# Imports of a script

The module specifiers that a script names, in `import ... from`, `export ... from` and imports for
their side effects.
-/

namespace SvelteTypings.Script

def unquoted (text : String) : String := String.ofList (text.toList.drop 1).dropLast

/-- The literal after the first `from` that has one right after it. -/
def afterFrom? : List Token → Option Token
  | t :: u :: ts =>
    if t.isWord "from" ∧ u.kind = .string then some u else afterFrom? (u :: ts)
  | _ => none

/-- The literal that names the module of a statement. -/
def specifierToken? (s : Statement) : Option Token :=
  match s.significant with
  | [] => none
  | first :: rest =>
    if first.isWord "import" then
      match rest with
      | second :: _ => if second.kind = .string then some second else afterFrom? (first :: rest)
      | [] => none
    else if first.isWord "export" then afterFrom? (first :: rest)
    else none

/-- The specifiers of the modules that the statements import or export from. -/
def specifiers (statements : List Statement) : List String :=
  statements.filterMap fun s => (specifierToken? s).map fun t => unquoted t.text

/-- A specifier that is resolved from the place of the importing file. -/
def isRelative (specifier : String) : Bool :=
  specifier = "." || specifier = ".." || "./".toList.isPrefixOf specifier.toList ||
    "../".toList.isPrefixOf specifier.toList

end SvelteTypings.Script
