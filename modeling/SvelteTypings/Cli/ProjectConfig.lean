import SvelteTypings.Cli.Failure
import SvelteTypings.Compiler.Options
import SvelteTypings.FileSystem.Disk
import SvelteTypings.Json.Comments
import SvelteTypings.Path.Normalize

/-!
# Configuration files

A `tsconfig.json` holds compiler options and may extend another one. The options of a file count
over those of the file that it extends. A relative output directory is meant from the file that sets
it, wherever that file is extended.
-/

namespace SvelteTypings.Cli

/-- What one file holds. -/
structure ConfigFile where
  extended : Option String
  options : Json.Members

namespace ConfigFile

/-! ## Reading one file

A file is an object of which two members count, each given once at most, or an array of these two
values. Other members are skimmed. -/

structure Fields where
  extended : Option (Option String) := none
  options : Option Json.Members := none

/-- What a file with these members holds. -/
def Fields.file (f : Fields) : ConfigFile := ⟨f.extended.getD none, f.options.getD []⟩

/-- The containers that may be open inside the file's own. -/
def room : Json.Mode := .strict (Json.maxDepth - 1)

def readExtended (f : Fields) (ts : List Json.Token) : Option (Fields × List Json.Token) :=
  match Json.readValue room ts, f.extended with
  | some (.null, rest), none => some ({ f with extended := some none }, rest)
  | some (.string s, rest), none => some ({ f with extended := some (some s) }, rest)
  | _, _ => none

def readOptions (f : Fields) (ts : List Json.Token) : Option (Fields × List Json.Token) :=
  match Json.readValue room ts, f.options with
  | some (.object ms, rest), none => some ({ f with options := some ms }, rest)
  | _, _ => none

def readField (key : String) (f : Fields) (ts : List Json.Token) :
    Option (Fields × List Json.Token) :=
  if key = "extends" then readExtended f ts
  else if key = "compilerOptions" then readOptions f ts
  else (Json.readValue .skim ts).map fun (_, rest) => (f, rest)

/-- Reads the members of an object from a key on. The bound is the number of tokens. -/
def readMembers : Nat → Fields → List Json.Token → Option (Fields × List Json.Token)
  | 0, _, _ => none
  | n + 1, f, .string (some key) :: .colon :: ts => do
    let (f, rest) ← readField key f ts
    match rest with
    | .comma :: rest => readMembers n f rest
    | .closeBrace :: rest => some (f, rest)
    | _ => none
  | _ + 1, _, _ => none

def readItems (ts : List Json.Token) : Option (Fields × List Json.Token) := do
  match ts with
  | .closeBracket :: rest => some ({}, rest)
  | ts =>
    let (f, rest) ← readExtended {} ts
    match rest with
    | .closeBracket :: rest => some (f, rest)
    | .comma :: rest =>
      let (f, rest) ← readOptions f rest
      match rest with
      | .closeBracket :: rest => some (f, rest)
      | _ => none
    | _ => none

def ofTokens? (ts : List Json.Token) : Option ConfigFile :=
  let read : Option (Fields × List Json.Token) := match ts with
    | .openBrace :: .closeBrace :: rest => some ({}, rest)
    | .openBrace :: rest => readMembers ts.length {} rest
    | .openBracket :: rest => readItems rest
    | _ => none
  match read with
  | some (f, []) => some f.file
  | _ => none

/-- What a file with the given text holds. -/
def ofText? (text : String) : Option ConfigFile := (Json.tokens (Json.plain text)).bind ofTokens?

end ConfigFile

/-! ## Paths of extended files -/

def configName : String := "tsconfig.json"

/-- The name has a dot after its first byte. -/
def hasExtension (name : List UInt8) : Bool := (name.drop 1).contains Path.dot

/-- The path with `.json` after its name, if the name has no extension. -/
def withJson (p : Path) : Path :=
  match p.fileName? with
  | some name =>
    if hasExtension name then p
    else
      ⟨p.lead.bytes ++ Path.joined (Path.dropVoidEnd p.segments) ++ Text.encode ".json"⟩
  | none => p

def packages : Path := Path.ofString "node_modules"

/-- The file that a specifier in a file of the directory `dir` means: a path, or a file of a package
installed in `dir` or a directory around it. -/
def extendedPath (d : Disk) (dir : Path) (specifier : String) : Path :=
  let p := Path.ofString specifier
  if specifier.toList.head? = some '.' ∨ p.isAbsolute then withJson (dir.join p)
  else
    let within (base : Path) : Path := withJson ((base.join packages).join p)
    ((dir.ancestors.map within).find? d.isFile).getD (within dir)

/-! ## Reading a chain of files -/

/-- The output directory among the options of a file, as a path from the file's directory. -/
def anchored (dir : Path) (key : String) (value : Json) : Json :=
  match value with
  | .string s =>
    if key = "declarationDir" then .string (dir.join (Path.ofString s)).normalize.display
    else .string s
  | v => v

/-- The options of a file over those of the file it extends. -/
def layered (dir : Path) (base own : Json.Members) : Json.Members :=
  own.foldl (fun ms (key, value) => ms.set key (anchored dir key value)) base

/-- The options of a file and those it extends. `visited` are the files on the way, and the bound is
how many more can be read. -/
def loadMembers (d : Disk) : Nat → List Path → Path → Except Failure Json.Members
  | 0, _, p => .error (.configCycle p)
  | n + 1, visited, p =>
    if visited.any p.normalize.same then .error (.configCycle p)
    else
      match d.readText p with
      | .error e => .error (.configUnreadable p e.message)
      | .ok text =>
        match ConfigFile.ofText? text with
        | none => .error (.configMalformed p)
        | some file =>
          let dir := p.parent?.getD ⟨[Path.dot]⟩
          match file.extended with
          | none => .ok (layered dir [] file.options)
          | some specifier =>
            match loadMembers d n (p.normalize :: visited) (extendedPath d dir specifier) with
            | .error e => .error e
            | .ok base => .ok (layered dir base file.options)

/-- More files than a chain can have. A file can be read under two absolute normalised paths at
most, and under two relative ones for each directory that it lies in. -/
def chainBound (d : Disk) : Nat :=
  4 * d.nodes.foldl (fun n (l, _) => n + l.length + 1) 0 + 1

/-- A configuration with the files it extends. -/
structure ProjectConfig where
  path : Option Path
  options : CompilerOptions

namespace ProjectConfig

/-- The nearest configuration file in a directory or around it. -/
def find? (d : Disk) (start : Path) : Option Path :=
  (start.ancestors.map fun dir => dir.join (Path.ofString configName)).find? d.isFile

/-- Reads a configuration file and those it extends. -/
def load (d : Disk) (p : Path) : Except Failure ProjectConfig :=
  match loadMembers d (chainBound d) [] p with
  | .error e => .error e
  | .ok ms =>
    match CompilerOptions.ofMembers? ms with
    | some o => .ok ⟨some p, o⟩
    | none => .error (.configInvalid p)

end ProjectConfig

end SvelteTypings.Cli
