import SvelteTypings.Compiler.Emission
import SvelteTypings.Generation.Components

/-!
# Declarations of plain scripts

Scripts are real files. The compiler runs once over them, and what it writes is kept in memory.
-/

namespace SvelteTypings.Generation

structure ScriptDeclaration where
  destination : Path
  /-- The text of the declaration file, if the compiler has written one. -/
  output : Option String
deriving DecidableEq

/-- The path of a script without the suffix of its language. -/
def scriptStem (script : Path) : Path := script.stem Emission.sourceSuffixes

/-- Hands what was written to the scripts in order. Each file goes to the first script that it can
be the declaration file of. -/
def assign (c : Config) : List Path → PathMap String → PathMap ScriptDeclaration →
    PathMap ScriptDeclaration
  | [], _, found => found
  | script :: scripts, writes, found =>
    let stem := scriptStem script
    match c.destination? stem with
    | none => assign c scripts writes found
    | some destination =>
      let emitted := stem.appendSuffix Path.declarationSuffix
      assign c scripts (writes.erase emitted)
        (found.insert script ⟨destination, writes.get? emitted⟩)

/-- Generates the declarations of the scripts below the source root. -/
def generateScripts (c : Config) (scripts : List Path) (compiler : Compiler) (fs : FileSystem)
    (cwd : Path) : Generated (PathMap ScriptDeclaration) :=
  let skipped := (scripts.filter fun p => !c.isUnderSource p).map fun _ =>
    warn "skipping script outside the source root"
  let scripts := scripts.filter c.isUnderSource
  if scripts.isEmpty then ⟨.ok .empty, [], skipped⟩
  else
    let ending := (compiler scripts c.options.declarationOnly).run (Host.capturing fs cwd) .empty
    match ending.result with
    | .error e => ⟨.error e, [⟨1, scripts, .error e⟩], skipped ++ ending.log⟩
    | .ok output =>
      ⟨.ok (assign c scripts ending.state .empty), [⟨1, scripts, .ok output⟩],
        skipped ++ ending.log ++ output.diagnostics.map fun d => warn d.text⟩

end SvelteTypings.Generation
