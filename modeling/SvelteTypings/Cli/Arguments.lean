import SvelteTypings.Path.Basic

/-!
# Command-line arguments

What may stand on the command line, and how it is read. Options and source directories may be mixed.
Two flags that contradict each other may both be given, and the later one counts; anything else that
is not a list may be given once.

A value of an option, and a run of source directories, is taken into account when the next option
comes or the line ends; an option that nobody knows is reported before that.
-/

namespace SvelteTypings.Cli

/-- Why a command line does nothing but print a text. -/
inductive Usage where
  | help
  | version
  | unknownArgument
  /-- A value is missing or empty. -/
  | invalidValue
  /-- A flag is given a value. -/
  | tooManyValues
  /-- An option is given twice. -/
  | argumentConflict
  | missingRequiredArgument
deriving DecidableEq

/-- Options without a value. -/
inductive Flag where
  | overwrite
  | noOverwrite
  | dryRun
  | strict
  | noStrict
  | runOnTs
  | noRunOnTs
  | verbose
deriving DecidableEq

/-- The flag that this one takes back. -/
def Flag.opposite? : Flag → Option Flag
  | .overwrite => some .noOverwrite
  | .noOverwrite => some .overwrite
  | .strict => some .noStrict
  | .noStrict => some .strict
  | .runOnTs => some .noRunOnTs
  | .noRunOnTs => some .runOnTs
  | .dryRun => none
  | .verbose => none

/-- Options with a value. -/
inductive Setting where
  | declarationDir
  | extensions
  | project
deriving DecidableEq

inductive Name where
  | flag (f : Flag)
  | setting (s : Setting)
  | help
  | version
deriving DecidableEq

def ofLongName? (name : String) : Option Name :=
  match name with
  | "declaration-dir" | "declarationDir" => some (.setting .declarationDir)
  | "overwrite" => some (.flag .overwrite)
  | "no-overwrite" => some (.flag .noOverwrite)
  | "dry-run" | "dryRun" => some (.flag .dryRun)
  | "strict" => some (.flag .strict)
  | "no-strict" => some (.flag .noStrict)
  | "run-on-ts" | "runOnTs" => some (.flag .runOnTs)
  | "no-run-on-ts" => some (.flag .noRunOnTs)
  | "extensions" => some (.setting .extensions)
  | "project" => some (.setting .project)
  | "verbose" => some (.flag .verbose)
  | "help" => some .help
  | "version" => some .version
  | _ => none

def ofShortName? (name : Char) : Option Name :=
  match name with
  | 'n' => some (.flag .dryRun)
  | 'p' => some (.setting .project)
  | 'h' => some .help
  | 'V' => some .version
  | _ => none

/-! ## What has been read -/

structure Arguments where
  sources : List String := []
  declarationDir : Option String := none
  /-- As given; without any, `defaultExtensions` count. -/
  extensions : List String := []
  project : Option String := none
  flags : List Flag := []
deriving DecidableEq

def defaultExtensions : List String := [".svelte"]

namespace Arguments

def has (a : Arguments) (f : Flag) : Bool := a.flags.contains f

/-- The endings of the names of components. -/
def componentExtensions (a : Arguments) : List String :=
  if a.extensions.isEmpty then defaultExtensions else a.extensions

/-- Whether strict mode is asked for or forbidden. -/
def strict? (a : Arguments) : Option Bool :=
  if a.has .strict then some true else if a.has .noStrict then some false else none

def overwrites (a : Arguments) : Bool := a.has .overwrite && !a.has .noOverwrite

def runsOnTs (a : Arguments) : Bool := a.has .runOnTs && !a.has .noRunOnTs

end Arguments

/-- What is still to be taken into account. -/
inductive Pending where
  | none
  | sources (dirs : List String)
  | setting (s : Setting) (value : Option String)

structure Reader where
  given : Arguments := {}
  pending : Pending := .none

namespace Reader

def give (a : Arguments) (s : Setting) (value : String) : Except Usage Arguments :=
  match s with
  | .declarationDir =>
    if a.declarationDir.isSome then .error .argumentConflict
    else if value.isEmpty then .error .invalidValue
    else .ok { a with declarationDir := some value }
  | .project =>
    if a.project.isSome then .error .argumentConflict
    else if value.isEmpty then .error .invalidValue
    else .ok { a with project := some value }
  | .extensions => .ok { a with extensions := a.extensions ++ [value] }

def settle (r : Reader) : Except Usage Arguments :=
  match r.pending with
  | .none => .ok r.given
  | .sources dirs =>
    if dirs.any String.isEmpty then .error .invalidValue
    else .ok { r.given with sources := r.given.sources ++ dirs }
  | .setting _ none => .error .invalidValue
  | .setting s (some value) => give r.given s value

def takeFlag (r : Reader) (f : Flag) : Except Usage Reader := do
  let a ← r.settle
  if a.has f then .error .argumentConflict
  else
    let kept := a.flags.filter fun g => f.opposite? ≠ some g
    return { given := { a with flags := kept ++ [f] } }

/-- Takes an option whose value, if it has none yet, is the next argument. -/
def takeSetting (r : Reader) (s : Setting) (value : Option String) : Except Usage Reader := do
  let a ← r.settle
  match value with
  | some v => return { given := ← give a s v }
  | none => return { given := a, pending := .setting s none }

def takeName (r : Reader) (name : Name) (value : Option String) : Except Usage Reader :=
  match name, value with
  | .setting s, value => r.takeSetting s value
  | _, some _ => .error .tooManyValues
  | .flag f, none => r.takeFlag f
  | .help, none => do
    let _ ← r.settle
    .error .help
  | .version, none => do
    let _ ← r.settle
    .error .version

/-- Takes an argument after `--`, with its value if it has one. -/
def takeLong (r : Reader) (text : List Char) : Except Usage Reader :=
  let name := text.takeWhile (· ≠ '=')
  let value := match text.dropWhile (· ≠ '=') with
    | '=' :: value => some (String.ofList value)
    | _ => none
  match ofLongName? (String.ofList name) with
  | some name => r.takeName name value
  | none => .error .unknownArgument

/-- Takes the letters after `-`. What follows the letter of an option is its value. -/
def takeShort (r : Reader) : List Char → Except Usage Reader
  | [] => .ok r
  | c :: cs =>
    match ofShortName? c with
    | none => .error .unknownArgument
    | some (.setting s) =>
      r.takeSetting s (match cs with
        | [] => none
        | '=' :: value => some (String.ofList value)
        | value => some (String.ofList value))
    | some name => do takeShort (← r.takeName name none) cs

def takeSource (r : Reader) (dir : String) : Except Usage Reader :=
  match r.pending with
  | .sources dirs => .ok { r with pending := .sources (dirs ++ [dir]) }
  | _ => do return { given := ← r.settle, pending := .sources [dir] }

def take (r : Reader) (argument : String) : Except Usage Reader :=
  match argument.toList with
  | '-' :: '-' :: c :: cs => r.takeLong (c :: cs)
  | ['-', '-'] => .ok r
  | '-' :: c :: cs => r.takeShort (c :: cs)
  | _ =>
    match r.pending with
    | .setting s none => .ok { r with pending := .setting s (some argument) }
    | _ => r.takeSource argument

/-- Takes all arguments. After `--` everything is a source directory. -/
def takeAll (r : Reader) : List String → Except Usage Reader
  | [] => .ok r
  | argument :: rest =>
    if argument = "--" then rest.foldlM takeSource r
    else do takeAll (← r.take argument) rest

end Reader

def readArguments (argv : List String) : Except Usage Arguments := do
  let r ← Reader.takeAll {} argv
  let a ← r.settle
  if a.sources.isEmpty then .error .missingRequiredArgument else return a

end SvelteTypings.Cli
