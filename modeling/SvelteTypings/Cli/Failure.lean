import SvelteTypings.Failure

/-!
# Failures of the command
-/

namespace SvelteTypings.Cli

/-- Why the command ends early. -/
inductive Failure where
  | generation (e : SvelteTypings.Failure)
  | configCycle (path : Path)
  | configUnreadable (path : Path) (reason : String)
  | configMalformed (path : Path)
  | configInvalid (path : Path)
  | noOutputDirectory
  | noSourceDirectory (path : Path)
  | notCreated (directory : Path) (reason : String)
  | notWritten (file : Path) (reason : String)

/-- The text of a failure, without its cause. -/
def Failure.message (cwd : Path) : Failure → String
  | .generation e => e.message cwd
  | .configCycle p => "tsconfig extends cycle detected at " ++ p.display
  | .configUnreadable p _ => "Failed to read " ++ p.display
  | .configMalformed p => "Failed to parse " ++ p.display
  | .configInvalid p => "Invalid compilerOptions in " ++ p.display
  | .noOutputDirectory =>
    "No output directory, pass --declaration-dir or set compilerOptions.declarationDir"
  | .noSourceDirectory p => "Source directory " ++ p.quotedIn cwd ++ " does not exist"
  | .notCreated p _ => "Failed to create " ++ p.display
  | .notWritten p _ => "Failed to write " ++ p.display

/-- What a failure was caused by. -/
def Failure.cause? : Failure → Option String
  | .configUnreadable _ reason => some reason
  | .notCreated _ reason => some reason
  | .notWritten _ reason => some reason
  | _ => none

end SvelteTypings.Cli
