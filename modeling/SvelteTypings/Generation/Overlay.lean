import SvelteTypings.Compiler.Session
import SvelteTypings.Generation.Config
import SvelteTypings.Generation.Synthesis
import SvelteTypings.Generation.Table

/-!
# The overlay

The overlay is the host that shows a compiler the intermediate files of the table beside the real
files. When the compiler asks for a path that the table does not know, the overlay tries to discover
a component behind it, and an intermediate file may come to exist by the question. Whatever the
compiler writes goes to the table or nowhere.
-/

namespace SvelteTypings.Generation

/-! ## Discovery -/

/-- What a question for an unknown path adds to the table. -/
abbrev Discovery := Path → Except Failure (Option Entry)

def noDiscovery : Discovery := fun _ => .ok none

/-- An intermediate file is made for a component that exists, is of a kind that gets types, has none
yet, and lies below the source root. -/
def discoverComponent (c : Config) (fs : FileSystem) (transformer : Transformer) : Discovery :=
  fun candidate =>
    match candidate.stripSuffix? Path.intermediateSuffix with
    | none => .ok none
    | some component =>
      if !fs.isFile component || !c.isComponent component then .ok none
      else
        match mayType fs component with
        | .error e => .error e
        | .ok false => .ok none
        | .ok true =>
          if !c.isUnderSource candidate then .ok none
          else
            match c.destination? component with
            | none => .ok none
            | some destination =>
              match synthesize fs transformer component with
              | .error e => .error e
              | .ok source => .ok (some { component, source, destination })

/-! ## The host -/

/-- There is a file at the path, in the table or for real. A path that the table does not know may
be discovered. -/
def overlayExists (discovery : Discovery) (fs : FileSystem) (t : Table) (p : Path) :
    Except Failure Bool × Table :=
  if t.contains p then (.ok true, t)
  else
    match discovery p with
    | .error e => (.error e, t)
    | .ok none => (.ok (fs.isFile p), t)
    | .ok (some entry) =>
      let t := t.insertDiscovered entry
      (.ok (t.contains p || fs.isFile p), t)

def overlayText? (fs : FileSystem) (t : Table) (p : Path) : Except Failure (Option String) :=
  match t.get? p with
  | some e => .ok (some e.source)
  | none => fs.textOf? p

/-- The host that shows the table over the real files. What can be read are the real files, the
intermediate files of the table, and those that may still be discovered. Behind each of these is a
real file, spelled as it is or with a separator or a `.` after it. -/
def overlay (discovery : Discovery) (fs : FileSystem) (cwd : Path) : Host Table where
  fileExists := overlayExists discovery fs
  textOf := overlayText? fs
  save t p text := (.ok (), t.capture p text)
  directoryExists _ p := fs.isDirectory p
  currentDirectory := cwd
  capacity t := 4 * fs.capacity + t.size

end SvelteTypings.Generation
