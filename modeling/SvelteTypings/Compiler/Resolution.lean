import SvelteTypings.Compiler.Session
import SvelteTypings.Path.Suffix
import SvelteTypings.Script.Import

/-!
# Module resolution

Where the file of a relative import is looked for. The candidates are tried in order; those that lie
in the imported path itself, the index files, only if it is a directory.
-/

namespace SvelteTypings.Resolution

/-- The suffixes of files that have types, in the order in which they are tried. -/
def typedSuffixes : List String := [".ts", ".tsx", ".d.ts"]

/-- The files that an imported path may stand for, in the order in which they are tried. -/
def candidates (base : Path) : List Path :=
  if typedSuffixes.any base.hasSuffix then [base]
  else
    match base.stripSuffix? ".js", base.stripSuffix? ".jsx" with
    | some stem, _ => typedSuffixes.map stem.appendSuffix
    | none, some stem => [stem.appendSuffix ".tsx"]
    | none, none =>
      typedSuffixes.map base.appendSuffix ++
        typedSuffixes.map fun suffix => base.join (Path.ofString ("index" ++ suffix))

/-- The path that a specifier means in an importing file. -/
def importBase (specifier : String) (importer : Path) : Path :=
  ((importer.parent?.getD .empty).join (Path.ofString specifier)).normalize

/-- The candidate lies in the imported path. -/
def isIndex (base candidate : Path) : Bool := candidate.parent?.any (·.same base)

/-- Tries candidates in order. `known` is whether the imported path is a directory, once that has
been asked. -/
def search (base : Path) (known : Option Bool) : List Path → Session (Option Path)
  | [] => pure none
  | candidate :: rest => do
    let probe (known : Option Bool) : Session (Option Path) := do
      if ← Session.exists? candidate then pure (some candidate) else search base known rest
    if isIndex base candidate then
      let isDirectory ← match known with
        | some b => pure b
        | none => Session.isDirectory base
      if isDirectory then probe (some isDirectory) else search base (some isDirectory) rest
    else probe known

/-- The file that a relative specifier means in an importing file. -/
def resolve (specifier : String) (importer : Path) : Session (Option Path) :=
  if Script.isRelative specifier then
    let base := importBase specifier importer
    search base none (candidates base)
  else pure none

end SvelteTypings.Resolution
