import SvelteTypings.Compiler.Options
import SvelteTypings.Path.Suffix

/-!
# Configuration of a run

Where components are, where their declarations go, and which files are components. The roots are
taken in normalised form.
-/

namespace SvelteTypings.Generation

/-- How many passes a run may take unless it is told otherwise. -/
def defaultMaxPasses : Nat := 5

structure Config where
  components : List Path := []
  /-- The directory that components lie below. -/
  source : Path
  /-- The directory that declarations go to. -/
  output : Path
  options : CompilerOptions := {}
  maxPasses : Nat := defaultMaxPasses
  /-- A file that is found on the way is a component. -/
  isComponent : Path → Bool := fun _ => false

namespace Config

def sourceRoot (c : Config) : Path := c.source.normalize

def outputRoot (c : Config) : Path := c.output.normalize

/-- The name of a path ends in one of the extensions, as far as it is text. -/
def endsInOneOf (extensions : List String) (p : Path) : Bool :=
  extensions.any fun e => (Text.encode e).isSuffixOf (Text.encode p.display)

/-- Whatever ends in one of the extensions is a component. -/
def withExtensions (c : Config) (extensions : List String) : Config :=
  { c with isComponent := endsInOneOf extensions }

/-- The path lies below the source root or is the root itself. -/
def isUnderSource (c : Config) (p : Path) : Bool := p.startsWith c.sourceRoot

/-- The declaration file of a component: its place below the source root, taken to the output
root. -/
def destination? (c : Config) (component : Path) : Option Path :=
  (component.remapRoot? c.sourceRoot c.outputRoot).map fun p =>
    p.appendSuffix Path.declarationSuffix

end Config

end SvelteTypings.Generation
