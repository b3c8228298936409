import SvelteTypings.Path.Basic
import SvelteTypings.Text.Quoted

/-!
# Paths in messages

A message shows a path from the current directory if it lies there, else as it is written.
-/

namespace SvelteTypings.Path

/-- The path as messages show it in the directory `cwd`. -/
def relativeTo (p cwd : Path) : String :=
  match p.below? cwd with
  | some q => if q.bytes = [] then "." else q.display
  | none => p.display

/-- The path as error messages quote it in the directory `cwd`. -/
def quotedIn (p cwd : Path) : String := Text.jsonLiteral (p.relativeTo cwd)

end SvelteTypings.Path
