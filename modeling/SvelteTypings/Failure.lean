import SvelteTypings.Path.Relative

/-!
# Failures and diagnostics

A `Failure` ends a run. A `Diagnostic` is a remark of the compiler that does not.
-/

namespace SvelteTypings

/-- The kinds of hand-written typed file that can stand beside a component. -/
inductive TypedKind where
  | ts
  | tsx
deriving DecidableEq

def TypedKind.label : TypedKind → String
  | .ts => "Ts"
  | .tsx => "Tsx"

inductive Failure where
  /-- A hand-written typed file stands beside a component. -/
  | conflict (kind : TypedKind) (typed component : Path)
  | read (path : Path) (reason : String)
  | transform (path : Path) (reason : String)
  | compile (reason : String)
  | io (reason : String)
  | generic (reason : String)
deriving DecidableEq

namespace Failure

def isConflict : Failure → Bool
  | .conflict .. => true
  | _ => false

/-- The text of a failure, with paths as they are seen from the directory `cwd`. -/
def message (cwd : Path) : Failure → String
  | .conflict kind typed component =>
    kind.label ++ " file " ++ typed.quotedIn cwd ++ " conflicts with " ++ component.quotedIn cwd ++
      "."
  | .read path reason => "Failed to read " ++ path.quotedIn cwd ++ ": " ++ reason
  | .transform path reason => "Failed to transform " ++ path.quotedIn cwd ++ ": " ++ reason
  | .compile reason => "Declaration compiler failed: " ++ reason
  | .io reason => "IO error: " ++ reason
  | .generic reason => "Generic error: " ++ reason

end Failure

/-- A remark of the compiler, about a file or about the whole program. -/
structure Diagnostic where
  file : Option Path
  message : String
deriving DecidableEq

def Diagnostic.text (d : Diagnostic) : String :=
  match d.file with
  | some file => file.display ++ ": " ++ d.message
  | none => d.message

/-! ## Progress messages -/

inductive Level where
  | info
  | warn
deriving DecidableEq

structure LogEntry where
  level : Level
  message : String
deriving DecidableEq

/-- The messages of a run, oldest first. -/
abbrev Log := List LogEntry

def info (message : String) : LogEntry := ⟨.info, message⟩
def warn (message : String) : LogEntry := ⟨.warn, message⟩

end SvelteTypings
