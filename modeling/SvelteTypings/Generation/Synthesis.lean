import SvelteTypings.Component.Typing
import SvelteTypings.FileSystem.Basic
import SvelteTypings.Path.Suffix

/-!
# Synthesis

Which components get an intermediate file, and what is in it. Both questions are put to the real
files, never to the overlay, so the answers stay the same for a whole run.
-/

namespace SvelteTypings.Generation

/-! ## The guard -/

/-- The hand-written typed file that stands beside a component, if there is one. -/
def typedSibling? (fs : FileSystem) (component : Path) : Option (TypedKind × Path) :=
  let ts := component.appendSuffix Path.typedSuffix
  let tsx := component.appendSuffix Path.intermediateSuffix
  if fs.present ts then some (.ts, ts) else if fs.present tsx then some (.tsx, tsx) else none

/-- A component may get an intermediate file if no declaration file stands beside it. A typed file
beside it is a conflict. -/
def mayType (fs : FileSystem) (component : Path) : Except Failure Bool :=
  match typedSibling? fs component with
  | some (kind, typed) => .error (.conflict kind typed component)
  | none => .ok (!fs.present (component.appendSuffix Path.declarationSuffix))

/-! ## Intermediate files -/

/-- The lines in front of every intermediate file. They name types that it needs. -/
def referenceDirectives : List String :=
  ["/// <reference types=\"svelte2tsx/svelte-shims\" />",
    "/// <reference types=\"svelte2tsx/svelte-jsx\" />"]

def directiveText : String := String.join (referenceDirectives.map (· ++ "\n"))

/-- The text of the intermediate file of a component. -/
def synthesize (fs : FileSystem) (transformer : Transformer) (component : Path) :
    Except Failure String :=
  match fs.read component with
  | .error reason => .error (.read component reason)
  | .ok source =>
    match transformer source component with
    | .error e => .error e
    | .ok text => .ok (directiveText ++ text)

end SvelteTypings.Generation
