import SvelteTypings.Cli.Generate

/-!
# The program

Reads the files that the command may need onto a disk in memory, runs the command there, and brings
what it has written to the real disk. All decisions are the command's; here is only what touches
files and streams.

The command sees the current directory and the source directories, of installed packages only their
JSON files near the top, and every configuration file that it asks for.
-/

namespace SvelteTypings.Main

/-- The names on the way from the root to an absolute path. -/
def locationOf (path : String) : Location :=
  (Path.ofString path).normalize.components.filterMap fun
    | .name bytes => some bytes
    | _ => none

/-- The real path of a location. -/
def realPath (l : Location) : String := Path.display ⟨Path.separator :: Path.joined l⟩

def insertFile (d : Disk) (path : String) : IO Disk := do
  let bytes ← IO.FS.readBinFile path
  return (Disk.withDirectories (locationOf path).dropLast d).insert (locationOf path)
    (.file bytes.data.toList)

/-- Reads a directory and what is below it. Below installed packages only JSON files are read, down
to the given depth. -/
partial def readTree (d : Disk) (path : String) (packageDepth : Option Nat) : IO Disk := do
  let mut d := Disk.withDirectories (locationOf path) d
  if packageDepth = some 0 then return d
  for entry in ← (← IO.FS.realPath path).readDir do
    let child := path ++ "/" ++ entry.fileName
    if ← entry.path.isDir then
      let depth := match packageDepth with
        | some n => some (n - 1)
        | none => if entry.fileName = "node_modules" then some 3 else none
      if entry.fileName ≠ ".git" then d ← readTree d child depth
    else if packageDepth.isNone || entry.fileName.endsWith ".json" then
      d ← try insertFile d child catch _ => pure d
  return d

/-- Reads a directory if there is one. -/
def readTreeIfThere (d : Disk) (path : String) : IO Disk := do
  if ← (← IO.FS.realPath path).isDir then readTree d path none else return d

/-- Runs the command. A configuration file that it finds missing is looked for on the real disk, and
the command is run again with it. -/
partial def runWith (a : Cli.Arguments) (d : Disk) :
    IO (Except Cli.Failure Unit × Cli.Progress × Disk) := do
  let (result, progress) := Cli.run a { disk := d }
  match result with
  | .error (.configUnreadable p _) =>
    if d.present p then return (result, progress, d)
    else
      let more ← try some <$> insertFile d p.display catch _ => pure none
      match more with
      | some d => runWith a d
      | none => return (result, progress, d)
  | _ => return (result, progress, d)

/-- Brings what is new on a disk to the real one. -/
def writeChanges (before after : Disk) : IO Unit := do
  for (l, n) in after.nodes do
    if before.node? l ≠ some n then
      match n with
      | .directory => IO.FS.createDirAll (realPath l)
      | .file bytes => IO.FS.writeBinFile (realPath l) ⟨bytes.toArray⟩

def usageText : String :=
  "Usage: svelte-typings [OPTIONS] <SOURCE_DIR>...\n\n" ++
  "      --declaration-dir <DIR>  Output directory for declarations\n" ++
  "      --overwrite              Replace declaration files that already exist\n" ++
  "  -n, --dry-run                Report what would be written\n" ++
  "      --strict, --no-strict    Force strict mode on or off\n" ++
  "      --run-on-ts              Also emit declarations for plain .ts files\n" ++
  "  -p, --project <FILE>         Path to tsconfig.json\n" ++
  "      --verbose                Log activity\n" ++
  "  -h, --help                   Print help\n" ++
  "  -V, --version                Print version"

def explain : Cli.Usage → String
  | .unknownArgument => "error: unexpected argument"
  | .invalidValue => "error: a value is required and may not be empty"
  | .tooManyValues => "error: unexpected value for a flag"
  | .argumentConflict => "error: an argument cannot be used multiple times"
  | .missingRequiredArgument => "error: a source directory is required"
  | .help => usageText
  | .version => "svelte-typings 0.1.0"

def levelName : Level → String
  | .info => " INFO "
  | .warn => " WARN "

def report (progress : Cli.Progress) : IO Unit := do
  for e in progress.log do IO.eprintln (levelName e.level ++ e.message)
  IO.print progress.stdout

/-- Runs the command on the real disk. -/
def runArguments (a : Cli.Arguments) : IO UInt32 := do
  let cwd := (← IO.currentDir).toString
  let mut d ← readTree (Disk.withDirectory (locationOf cwd)) cwd none
  let cwdPath := Path.ofString cwd
  for dir in cwdPath.ancestors do
    let file := (dir.join (Path.ofString Cli.configName)).display
    d ← try insertFile d file catch _ => pure d
  for source in a.sources ++ a.declarationDir.toList do
    let path := (Cli.absolute cwdPath (Path.ofString source)).display
    d ← try readTreeIfThere d path catch _ => pure d
  let (result, progress, seen) ← runWith a d
  report progress
  writeChanges seen progress.disk
  match result with
  | .ok () => return 0
  | .error e =>
    let cause := match e.cause? with
      | some reason => ": " ++ reason
      | none => ""
    IO.eprintln ("\nError: " ++ e.message cwdPath ++ cause ++ "\n")
    return 1

end SvelteTypings.Main

open SvelteTypings in
def main (argv : List String) : IO UInt32 := do
  match Cli.readArguments argv with
  | .ok a => Main.runArguments a
  | .error .help => do IO.println (Main.explain .help); return 0
  | .error .version => do IO.println (Main.explain .version); return 0
  | .error u => do IO.eprintln (Main.explain u ++ "\n\n" ++ Main.usageText); return 2
