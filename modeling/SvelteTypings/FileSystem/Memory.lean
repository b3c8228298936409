import SvelteTypings.FileSystem.Basic
import SvelteTypings.Path.Map

/-!
# File systems in memory

A map from paths to texts. Every path that another file lies below is a directory.
-/

namespace SvelteTypings

structure MemoryFiles where
  files : PathMap String
deriving Inhabited

namespace MemoryFiles

def empty : MemoryFiles := ⟨.empty⟩

def add (m : MemoryFiles) (p : Path) (text : String) : MemoryFiles := ⟨m.files.insert p text⟩

/-- The files given, of which the later one counts if two paths are the same. -/
def ofList (files : List (Path × String)) : MemoryFiles := ⟨.ofList files⟩

/-- Some other file lies below the path. -/
def isDirectory (m : MemoryFiles) (p : Path) : Bool :=
  m.files.keys.any fun q => !q.same p && q.startsWith p

def present (m : MemoryFiles) (p : Path) : Bool := m.files.contains p || m.isDirectory p

def read (m : MemoryFiles) (p : Path) : Except String String :=
  match m.files.get? p with
  | some text => .ok text
  | none => .error (p.display ++ " does not exist")

def fileSystem (m : MemoryFiles) : FileSystem where
  present := m.present
  isDirectory := m.isDirectory
  read := m.read
  capacity := m.files.size

end MemoryFiles

end SvelteTypings
