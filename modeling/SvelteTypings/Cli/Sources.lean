import SvelteTypings.FileSystem.Disk
import SvelteTypings.Path.Suffix

/-!
# Source files

The components and scripts below a source directory, in the order of a walk. Installed packages and
hidden directories are not entered.
-/

namespace SvelteTypings.Cli

structure Sources where
  components : List Path
  scripts : List Path

/-- A directory of this name is not entered. One whose name is no text is always entered. -/
def isIgnored (name : Path.Segment) : Bool :=
  match Text.decode? name with
  | some text => text = "node_modules" || text.toList.head? = some '.'
  | none => false

/-- The names that lead to the files below a location, in the order of a walk. -/
def filesBelow (d : Disk) (root : Location) : List Location :=
  d.nodes.filterMap fun (l, n) =>
    if n matches .file _ ∧ root.isPrefixOf l ∧ !((l.drop root.length).dropLast.any isIgnored) then
      some (l.drop root.length)
    else none

/-- The path of names below a directory. -/
def below (dir : Path) (names : Location) : Path := names.foldl (fun p name => p.join ⟨name⟩) dir

/-- The files that a walk of a directory meets. A file is met itself. What lies in a directory whose
path is too long is not met. -/
def walkFiles (d : Disk) (dir : Path) : List Path :=
  match d.stat dir, d.walk (d.start dir) (Path.split dir.bytes) with
  | .ok (.file _), _ => [dir]
  | .ok .directory, .ok root =>
    ((filesBelow d root).filter fun names =>
      (below dir names.dropLast).bytes.length ≤ Disk.maxPath).map (below dir)
  | _, _ => []

/-- A script is no declaration file. JavaScript counts only if it is allowed. -/
def isScript (allowJs : Bool) (p : Path) : Bool :=
  !p.hasSuffix Path.declarationSuffix &&
    ([".ts", ".tsx"].any p.hasSuffix || (allowJs && [".js", ".jsx"].any p.hasSuffix))

/-- The components, by the ends of their names, and the scripts among the other files. -/
def collect (d : Disk) (dir : Path) (extensions : List String) (allowJs : Bool) : Sources :=
  let files := walkFiles d dir
  let isComponent (p : Path) : Bool := extensions.any p.hasSuffix
  ⟨files.filter isComponent, files.filter fun p => !isComponent p && isScript allowJs p⟩

end SvelteTypings.Cli
