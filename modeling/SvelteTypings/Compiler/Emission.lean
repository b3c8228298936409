import SvelteTypings.Compiler.Program
import SvelteTypings.Script.Declaration

/-!
# Emission

The compiler of this library: it loads the program of its roots and writes the declarations of every
script of it next to the script.
-/

namespace SvelteTypings.Emission

/-- The suffixes that the declaration file of a source replaces. -/
def sourceSuffixes : List String := [".tsx", ".ts", ".jsx", ".js"]

def declarationPath (source : Path) : Path :=
  (Path.stem sourceSuffixes source).appendSuffix Path.declarationSuffix

/-- The directory of installed packages. -/
def packageDirectory : Path.Component := .name (Text.encode "node_modules")

/-- Declarations are written for a file of the program: not for one that holds declarations itself,
not for one of a package, and for JavaScript only if the options allow it. -/
def shouldEmit (o : CompilerOptions) (p : Path) : Bool :=
  if p.hasSuffix Path.declarationSuffix then false
  else if p.components.contains packageDirectory then false
  else if p.hasSuffix ".js" || p.hasSuffix ".jsx" then o.allowsJs
  else true

/-- Writes the declarations of files in order, and gives the paths written. -/
def writeAll (o : CompilerOptions) : List SourceFile → Session (List Path)
  | [] => pure []
  | file :: files => do
    let destination := declarationPath file.path
    Session.write destination (Script.declarations o file.text)
    let written ← writeAll o files
    return destination :: written

def missingOption : String :=
  "Option 'emitDeclarationOnly' cannot be specified without specifying option 'declaration'"

/-- Builds the program of the roots and writes its declarations. -/
def compile : Compiler := fun roots o => do
  if !o.declaration then Session.fail (.compile missingOption)
  else
    let program ← Program.build roots
    let emitted ← writeAll o (program.files.values.filter fun file => shouldEmit o file.path)
    Session.report "emitted declarations"
    return ⟨emitted, program.diagnostics⟩

end SvelteTypings.Emission
