import SvelteTypings.Compiler.Session
import SvelteTypings.FileSystem.Disk

/-!
# Compiling on a disk

The host whose files are those of a disk. What the compiler writes reaches the disk, with the
directories that it lies in.
-/

namespace SvelteTypings

/-- Writes a file and the directories it lies in. What has been created stays if a step fails. -/
def saveOnDisk (d : Disk) (p : Path) (text : String) : Except Failure Unit × Disk :=
  match d.makeParents p with
  | (.error e, d) => (.error (.io e.message), d)
  | (.ok (), d) =>
    match d.write p (Text.encode text) with
    | .ok d => (.ok (), d)
    | .error e => (.error (.io e.message), d)

/-- The host of a disk, seen from the directory `cwd`. -/
def Host.onDisk (cwd : Path) : Host Disk where
  fileExists d p := (.ok (d.fileSystem.isFile p), d)
  textOf d p := d.fileSystem.textOf? p
  save := saveOnDisk
  directoryExists d p := d.isDirectory p
  currentDirectory := cwd
  capacity d := d.fileSystem.capacity

end SvelteTypings
