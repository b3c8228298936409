import SvelteTypings.Compiler.Resolution

/-!
# Programs

The files that can be reached from some roots through relative imports, loaded breadth first. Each
file is loaded once, so the host's bound on readable files bounds the work, also when imports go in
circles and a probe makes a new file exist.
-/

namespace SvelteTypings

structure SourceFile where
  path : Path
  text : String
  /-- The files that its relative imports mean, in order. -/
  imports : List Path

structure Program where
  files : PathMap SourceFile
  diagnostics : List Diagnostic

namespace Program

def empty : Program := ⟨.empty, []⟩

def diagnose (p : Program) (file : Path) (message : String) : Program :=
  { p with diagnostics := p.diagnostics ++ [⟨some file, message⟩] }

/-- Resolves the relative ones of some specifiers of a file. Gives the files they mean; what cannot
be found is diagnosed. -/
def resolveAll (importer : Path) : List String → Program → Session (List Path × Program)
  | [], program => pure ([], program)
  | specifier :: rest, program =>
    if Script.isRelative specifier then do
      match ← Resolution.resolve specifier importer with
      | some found =>
        let (imports, program) ← resolveAll importer rest program
        return (found :: imports, program)
      | none =>
        resolveAll importer rest
          (program.diagnose importer ("Cannot find module '" ++ specifier ++ "'"))
    else resolveAll importer rest program

/-- Takes files from a queue until one is found that can be loaded, and goes on with `load` from
there: its path, its text and the rest of the queue. -/
def drain (load : Path → String → List Path → Program → Session Program) :
    List Path → Program → Session Program
  | [], program => pure program
  | path :: queue, program =>
    if program.files.contains path then drain load queue program
    else do
      match ← Session.read? path with
      | none => drain load queue (program.diagnose path "File not found")
      | some text => load path text queue program

/-- Loads the files of a queue and everything that they import, as long as no more than the given
number of files is loaded. -/
def loadAll : Nat → List Path → Program → Session Program
  | 0 => drain fun _ _ _ _ => Session.fail (.compile "the host serves more files than it announced")
  | n + 1 => drain fun path text queue program => do
    let (imports, program) ← resolveAll path (Script.specifiers (Script.scan text)) program
    let program := { program with files := program.files.insert path ⟨path, text, imports⟩ }
    loadAll n (queue ++ imports.filter fun p => !program.files.contains p) program

/-- The program of some roots. Relative roots are taken from the host's directory. -/
def build (roots : List Path) : Session Program := do
  let cwd ← Session.directory
  let bound ← Session.bound
  loadAll bound (roots.map fun root => (cwd.join root).normalize) empty

end Program

end SvelteTypings
