import SvelteTypings.Compiler.Options
import SvelteTypings.FileSystem.Basic
import SvelteTypings.Path.Map

/-!
# Compiler sessions

A compiler never touches a file itself. What it does with files is a `Session`: a tree whose nodes
are the calls it makes and whose branches are the answers it may get. A `Host` answers the calls.
One session can so be run against files, against an overlay of files that do not exist, or against
any other host, and a statement about all sessions is a statement about every compiler.
-/

namespace SvelteTypings

/-- The calls of a compiler, each followed by what it does with the answer. -/
inductive Session (α : Type) where
  | done (result : Except Failure α)
  /-- Asks whether there is a file at the path. The host may make one exist. -/
  | fileExists (p : Path) (next : Except Failure Bool → Session α)
  /-- Asks for the text of a file, `none` if there is none. -/
  | textOf (p : Path) (next : Except Failure (Option String) → Session α)
  | save (p : Path) (text : String) (next : Except Failure Unit → Session α)
  | directoryExists (p : Path) (next : Bool → Session α)
  /-- Asks for the directory where relative paths start. -/
  | currentDirectory (next : Path → Session α)
  /-- Asks for a bound on how many normalised paths the host will ever let be read. -/
  | capacity (next : Nat → Session α)
  | note (message : String) (next : Session α)

namespace Session

variable {α β : Type}

def fail (e : Failure) : Session α := .done (.error e)

def bind : Session α → (α → Session β) → Session β
  | .done (.ok a), k => k a
  | .done (.error e), _ => .done (.error e)
  | .fileExists p next, k => .fileExists p fun r => (next r).bind k
  | .textOf p next, k => .textOf p fun r => (next r).bind k
  | .save p text next, k => .save p text fun r => (next r).bind k
  | .directoryExists p next, k => .directoryExists p fun r => (next r).bind k
  | .currentDirectory next, k => .currentDirectory fun r => (next r).bind k
  | .capacity next, k => .capacity fun r => (next r).bind k
  | .note m next, k => .note m (next.bind k)

instance : Monad Session where
  pure a := .done (.ok a)
  bind := bind

/-- Asks whether a file exists and gives up if the host fails. -/
def exists? (p : Path) : Session Bool := .fileExists p .done

/-- Reads a file and gives up if the host fails. -/
def read? (p : Path) : Session (Option String) := .textOf p .done

/-- Writes a file and gives up if the host fails. -/
def write (p : Path) (text : String) : Session Unit := .save p text .done

def isDirectory (p : Path) : Session Bool := .directoryExists p pure

def directory : Session Path := .currentDirectory pure

def bound : Session Nat := .capacity pure

def report (message : String) : Session Unit := .note message (pure ())

end Session

/-- What answers the calls of a session. `σ` is what the calls can change. -/
structure Host (σ : Type) where
  fileExists : σ → Path → Except Failure Bool × σ
  textOf : σ → Path → Except Failure (Option String)
  save : σ → Path → String → Except Failure Unit × σ
  directoryExists : σ → Path → Bool
  currentDirectory : Path
  capacity : σ → Nat

structure Ending (σ α : Type) where
  result : Except Failure α
  state : σ
  log : Log

namespace Session

variable {σ α : Type}

def run (host : Host σ) : Session α → σ → Ending σ α
  | .done result, state => ⟨result, state, []⟩
  | .fileExists p next, state =>
    let (answer, state) := host.fileExists state p
    (next answer).run host state
  | .textOf p next, state => (next (host.textOf state p)).run host state
  | .save p text next, state =>
    let (answer, state) := host.save state p text
    (next answer).run host state
  | .directoryExists p next, state => (next (host.directoryExists state p)).run host state
  | .currentDirectory next, state => (next host.currentDirectory).run host state
  | .capacity next, state => (next (host.capacity state)).run host state
  | .note m next, state =>
    let ending := next.run host state
    { ending with log := info m :: ending.log }

end Session

/-- What a compiler has done when it succeeds. -/
structure EmitOutput where
  emitted : List Path
  diagnostics : List Diagnostic

/-- A compiler builds a program from its root files and emits it, in one session. -/
abbrev Compiler := List Path → CompilerOptions → Session EmitOutput

/-- The host that reads files and keeps what is written to itself, by path. -/
def Host.capturing (fs : FileSystem) (cwd : Path) : Host (PathMap String) where
  fileExists writes p := (.ok (fs.isFile p), writes)
  textOf _ p := fs.textOf? p
  save writes p text := (.ok (), writes.insert p text)
  directoryExists _ p := fs.isDirectory p
  currentDirectory := cwd
  capacity _ := fs.capacity

end SvelteTypings
