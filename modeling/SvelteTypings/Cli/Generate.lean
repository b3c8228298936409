import SvelteTypings.Cli.Arguments
import SvelteTypings.Cli.Persist
import SvelteTypings.Cli.ProjectConfig
import SvelteTypings.Cli.Sources
import SvelteTypings.Generation.Scripts

/-!
# The command

Generates the declarations of every component below the given source directories, and of their
scripts if that is asked for, and writes them to the output directory.
-/

namespace SvelteTypings.Cli

open Generation

/-! ## What is printed -/

structure Summary where
  written : Nat := 0
  dryRun : Nat := 0
  skipped : Nat := 0
  missing : Nat := 0

def Summary.count (s : Summary) : WriteOutcome → Summary
  | .written => { s with written := s.written + 1 }
  | .dryRun => { s with dryRun := s.dryRun + 1 }
  | .exists => { s with skipped := s.skipped + 1 }
  | .noOutput => { s with missing := s.missing + 1 }

def outcomeLine (cwd source destination : Path) : WriteOutcome → String
  | .written => "  ✓ " ++ source.relativeTo cwd ++ " → " ++ destination.relativeTo cwd
  | .dryRun => "  • " ++ source.relativeTo cwd ++ " → " ++ destination.relativeTo cwd
  | .exists => "  • " ++ destination.relativeTo cwd ++ " exists, skipping (use --overwrite)"
  | .noOutput => "  ✗ No declarations for " ++ source.relativeTo cwd

def Summary.lines (s : Summary) (dryRun : Bool) : List String :=
  ["", if dryRun then "✨ Dry run: " ++ toString s.dryRun ++ " files would be written"
    else "✨ Done Wrote " ++ toString s.written ++ " declaration files"] ++
  (if s.skipped > 0 then
    ["   " ++ toString s.skipped ++ " existing files left untouched"] else []) ++
  (if s.missing > 0 then ["   " ++ toString s.missing ++ " files produced no declarations"] else [])

/-! ## The state of the command -/

structure Progress where
  disk : Disk
  /-- The lines printed. -/
  printed : List String := []
  log : Log := []
  summary : Summary := {}

/-- A part of the command. What it has done is kept when it fails. -/
abbrev Step (α : Type) := Progress → Except Failure α × Progress

namespace Step

variable {α β : Type}

def pure (a : α) : Step α := fun p => (.ok a, p)

def bind (s : Step α) (k : α → Step β) : Step β := fun p =>
  match s p with
  | (.ok a, p) => k a p
  | (.error e, p) => (.error e, p)

instance : Monad Step where
  pure := pure
  bind := bind

def fail (e : Failure) : Step α := fun p => (.error e, p)

def ofExcept (r : Except Failure α) : Step α := fun p => (r, p)

def disk : Step Disk := fun p => (.ok p.disk, p)

def print (line : String) : Step Unit := fun p =>
  (.ok (), { p with printed := p.printed ++ [line] })

end Step

/-! ## Preparation -/

/-- The path as it is meant in a directory. -/
def absolute (cwd p : Path) : Path := (cwd.join p).normalize

/-- The options of the project with what the command line says over them. -/
def effectiveOptions (a : Arguments) (cwd : Path) (o : CompilerOptions) : CompilerOptions :=
  let o := match a.strict? with
    | some b => { o with strict := some b }
    | none => o
  let dir := match a.declarationDir with
    | some dir => some (Path.ofString dir)
    | none => o.declarationDir
  { o with declarationDir := dir.map (absolute cwd) }.declarationOnly

def projectConfig (a : Arguments) (d : Disk) (cwd : Path) : Except Failure ProjectConfig :=
  let path := match a.project with
    | some p => some (absolute cwd (Path.ofString p))
    | none => ProjectConfig.find? d cwd
  match path with
  | some p => ProjectConfig.load d p
  | none => .ok ⟨none, {}⟩

/-! ## Running -/

/-- Adds the messages of a generation and gives its result. -/
def generated {α : Type} (g : Generated α) : Step α := fun p =>
  let result := match g.result with
    | .ok a => .ok a
    | .error e => .error (.generation e)
  (result, { p with log := p.log ++ g.log })

/-- Writes one declaration file and reports on it. -/
def persistOne (policy : WritePolicy) (source destination : Path) (text : Option String) :
    Step Unit := fun p =>
  match persist policy p.disk destination text with
  | (.error e, disk) => (.error e, { p with disk })
  | (.ok outcome, disk) =>
    let line := outcomeLine disk.currentDirectory source destination outcome
    (.ok (), { p with
      disk
      printed := p.printed ++ [line]
      summary := p.summary.count outcome })

def persistComponents (policy : WritePolicy) : List Entry → Step Unit
  | [] => pure ()
  | e :: es => do
    persistOne policy e.component e.destination e.output
    persistComponents policy es

def persistScripts (policy : WritePolicy) : List (Path × ScriptDeclaration) → Step Unit
  | [] => pure ()
  | (script, s) :: ss => do
    persistOne policy script s.destination s.output
    persistScripts policy ss

/-- What the command does for one source directory. -/
def runSource (a : Arguments) (policy : WritePolicy) (o : CompilerOptions) (output dir : Path) :
    Step Unit := do
  let d ← Step.disk
  let cwd := d.currentDirectory
  let sources := collect d dir a.componentExtensions o.allowsJs
  let base : Config := { components := sources.components, source := dir, output, options := o }
  let config := base.withExtensions a.componentExtensions
  let table ← generated (generate config Component.typing Emission.compile d.fileSystem cwd)
  persistComponents policy table.entries.values
  if a.runsOnTs then do
    let d ← Step.disk
    let scripts ←
      generated (generateScripts config sources.scripts Emission.compile d.fileSystem cwd)
    persistScripts policy scripts.toList

def runSources (a : Arguments) (policy : WritePolicy) (o : CompilerOptions) (output : Path) :
    List Path → Step Unit
  | [] => pure ()
  | dir :: dirs => do
    runSource a policy o output dir
    runSources a policy o output dirs

def run (a : Arguments) : Step Unit := do
  let d ← Step.disk
  let cwd := d.currentDirectory
  let policy : WritePolicy := ⟨a.has .dryRun, a.overwrites⟩
  if policy.dryRun then Step.print "Dry run enabled, will not change anything!"
  let project ← Step.ofExcept (projectConfig a d cwd)
  if let some p := project.path then Step.print ("Using tsconfig " ++ p.quotedIn cwd)
  let o := effectiveOptions a cwd project.options
  match o.declarationDir with
  | none => Step.fail .noOutputDirectory
  | some output =>
    let dirs := a.sources.map fun dir => absolute cwd (Path.ofString dir)
    match dirs.find? fun dir => !d.isDirectory dir with
    | some dir => Step.fail (.noSourceDirectory dir)
    | none =>
      let listed := String.intercalate ", " (dirs.map fun dir => dir.quotedIn cwd)
      Step.print ("Generating declarations for svelte files [" ++ listed ++ "] -> " ++
        output.quotedIn cwd ++ ".")
      Step.print ""
      runSources a policy o output dirs
      let summary ← (fun p => (.ok p.summary, p) : Step Summary)
      for line in summary.lines policy.dryRun do Step.print line

/-- What has been printed, as one text. -/
def Progress.stdout (p : Progress) : String := String.join (p.printed.map (· ++ "\n"))

end SvelteTypings.Cli
