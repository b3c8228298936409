import SvelteTypings.Cli.Failure
import SvelteTypings.FileSystem.Disk

/-!
# Writing declaration files

How the files of a run come to the disk. Nothing else in a run writes to it.
-/

namespace SvelteTypings.Cli

structure WritePolicy where
  /-- Nothing is written. -/
  dryRun : Bool
  /-- A file that exists may be written over. -/
  overwrite : Bool

inductive WriteOutcome where
  | written
  | dryRun
  /-- The file exists and stays. -/
  | exists
  /-- There was nothing to write. -/
  | noOutput
deriving DecidableEq

/-- Writes a file and the directories it lies in. What has been created stays if a step fails. -/
def writeWithParents (d : Disk) (p : Path) (text : String) : Except Failure WriteOutcome × Disk :=
  match d.makeParents p with
  | (.error e, d) => (.error (.notCreated (p.parent?.getD .empty) e.message), d)
  | (.ok (), d) =>
    match d.write p (Text.encode text) with
    | .ok d => (.ok .written, d)
    | .error e => (.error (.notWritten p e.message), d)

/-- Writes a declaration file, if there is one and the policy lets it. -/
def persist (policy : WritePolicy) (d : Disk) (p : Path) (text : Option String) :
    Except Failure WriteOutcome × Disk :=
  match text with
  | none => (.ok .noOutput, d)
  | some text =>
    if !policy.overwrite && d.present p then (.ok .exists, d)
    else if policy.dryRun then (.ok .dryRun, d)
    else writeWithParents d p text

end SvelteTypings.Cli
