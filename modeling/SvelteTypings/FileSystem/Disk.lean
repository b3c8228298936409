import SvelteTypings.FileSystem.Basic

/-!
# Disks

A disk is a tree of directories and files without links. It is kept as the list of everything below
the root, each with its location: the names on the way from the root to it. A path is walked segment
by segment, and every segment that others follow must be a directory, also before `..`. A path holds
no zero byte, and there are limits to its length and to that of each name on it.
-/

namespace SvelteTypings

/-- Why an operation on a disk fails. -/
inductive DiskError where
  | notFound
  | exists
  | notDirectory
  | isDirectory
  | notText
  | tooLong
  | zeroByte
  /-- No directory could be created at all. -/
  | noRoot
deriving DecidableEq

def DiskError.message : DiskError → String
  | .notFound => "No such file or directory (os error 2)"
  | .exists => "File exists (os error 17)"
  | .notDirectory => "Not a directory (os error 20)"
  | .isDirectory => "Is a directory (os error 21)"
  | .notText => "stream did not contain valid UTF-8"
  | .tooLong => "File name too long (os error 36)"
  | .zeroByte => "file name contained an unexpected NUL byte"
  | .noRoot => "failed to create whole tree"

/-- The names on the way from the root. -/
abbrev Location := List Path.Segment

inductive Node where
  | directory
  | file (bytes : List UInt8)
deriving DecidableEq

structure Disk where
  /-- Everything below the root, in the order of a walk: what lies in a directory comes after it,
  and names in one directory are ordered by their bytes. -/
  nodes : List (Location × Node)
  /-- Where relative paths start. -/
  current : Location

namespace Disk

/-- The order in which a walk meets two locations. -/
def compareLocations : Location → Location → Ordering
  | [], [] => .eq
  | [], _ :: _ => .lt
  | _ :: _, [] => .gt
  | a :: as, b :: bs => (Path.compareBytes a b).then (compareLocations as bs)

def node? (d : Disk) (l : Location) : Option Node :=
  if l = [] then some .directory else (d.nodes.find? (·.1 = l)).map Prod.snd

/-- Places a node: in order, and over the one that is there. -/
def insertNode (l : Location) (n : Node) : List (Location × Node) → List (Location × Node)
  | [] => [(l, n)]
  | (k, m) :: nodes =>
    match compareLocations l k with
    | .lt => (l, n) :: (k, m) :: nodes
    | .eq => (l, n) :: nodes
    | .gt => (k, m) :: insertNode l n nodes

def insert (d : Disk) (l : Location) (n : Node) : Disk := { d with nodes := insertNode l n d.nodes }

/-- Adds a directory and those it lies in. -/
def withDirectories (l : Location) (d : Disk) : Disk :=
  (List.range l.length).foldl (fun d n => d.insert (l.take (n + 1)) .directory) d

/-- The disk with nothing but the given directory and those it lies in. -/
def withDirectory (l : Location) : Disk := withDirectories l ⟨[], l⟩

def currentDirectory (d : Disk) : Path := ⟨Path.separator :: Path.joined d.current⟩

/-! ## Walking a path -/

def maxName : Nat := 255

def maxPath : Nat := 4095

/-- Fails for a path that nothing can be at, whatever is on the disk. -/
def expectPath (p : Path) : Except DiskError Unit :=
  if p.bytes.contains 0 then .error .zeroByte
  else if p.bytes = [] then .error .notFound
  else if maxPath < p.bytes.length then .error .tooLong
  else .ok ()

/-- Fails unless a directory is there. -/
def expectDirectory (d : Disk) (l : Location) : Except DiskError Unit :=
  match d.node? l with
  | some .directory => .ok ()
  | some (.file _) => .error .notDirectory
  | none => .error .notFound

/-- The location that segments lead to. What is there last may be missing. -/
def walk (d : Disk) (l : Location) : List Path.Segment → Except DiskError Location
  | [] => .ok l
  | s :: ss =>
    match d.expectDirectory l with
    | .error e => .error e
    | .ok () =>
      if Path.isVoid s then d.walk l ss
      else if s = [Path.dot, Path.dot] then d.walk l.dropLast ss
      else if maxName < s.length then .error .tooLong
      else d.walk (l ++ [s]) ss

/-- Where the walk of a path starts. -/
def start (d : Disk) (p : Path) : Location := if p.isAbsolute then [] else d.current

def stat (d : Disk) (p : Path) : Except DiskError Node := do
  expectPath p
  let l ← d.walk (d.start p) (Path.split p.bytes)
  match d.node? l with
  | some n => return n
  | none => .error .notFound

def present (d : Disk) (p : Path) : Bool := (d.stat p).toBool

def isDirectory (d : Disk) (p : Path) : Bool := d.stat p matches .ok .directory

def isFile (d : Disk) (p : Path) : Bool := d.stat p matches .ok (.file _)

/-! ## Reading -/

def readBytes (d : Disk) (p : Path) : Except DiskError (List UInt8) :=
  match d.stat p with
  | .ok (.file bytes) => .ok bytes
  | .ok .directory => .error .isDirectory
  | .error e => .error e

def readText (d : Disk) (p : Path) : Except DiskError String :=
  match d.readBytes p with
  | .ok bytes =>
    match Text.decode? bytes with
    | some text => .ok text
    | none => .error .notText
  | .error e => .error e

/-- The disk as a file system. A file has at most two normalised paths: the plain one, and the one
that begins by going up from the root. -/
def fileSystem (d : Disk) : FileSystem where
  present := d.present
  isDirectory := d.isDirectory
  read p :=
    match d.readText p with
    | .ok text => .ok text
    | .error e => .error e.message
  capacity := 2 * (d.nodes.filter fun e => e.2 matches .file _).length

/-! ## Writing -/

/-- The last segment of a path that is not empty, the segments before it, and whether separators
follow it. -/
def lastSegment (p : Path) : List Path.Segment × Path.Segment × Bool :=
  let ends := (Path.split p.bytes).reverse.takeWhile (· = [])
  match (Path.split p.bytes).reverse.dropWhile (· = []) with
  | [] => ([], [], true)
  | s :: before => (before.reverse, s, !ends.isEmpty)

/-- The location at which a path asks for something new, unless it ends in `.` or `..`. -/
def target (d : Disk) (p : Path) : Except DiskError (Option Location) := do
  expectPath p
  let (before, last, _) := lastSegment p
  let l ← d.walk (d.start p) before
  d.expectDirectory l
  return if Path.isVoid last ∨ last = [Path.dot, Path.dot] then none else some (l ++ [last])

/-- What is at a location whose name has not been looked at yet. -/
def lookUp (d : Disk) (l : Location) : Except DiskError (Option Node) :=
  if l.any (maxName < ·.length) then .error .tooLong else .ok (d.node? l)

def makeDirectory (d : Disk) (p : Path) : Except DiskError Disk := do
  match ← d.target p with
  | none => .error .exists
  | some l =>
    match ← d.lookUp l with
    | some _ => .error .exists
    | none => return d.insert l .directory

/-- Writes a file in a directory that exists, over the file that is there. -/
def write (d : Disk) (p : Path) (bytes : List UInt8) : Except DiskError Disk := do
  match ← d.target p with
  | none => .error .isDirectory
  | some l =>
    if (lastSegment p).2.2 then .error .isDirectory
    else
      match ← d.lookUp l with
      | some .directory => .error .isDirectory
      | _ => return d.insert l (.file bytes)

/-- Creates the directory `p`, where `outer` are the directories it lies in, innermost first. What
was created stays if a later step fails. -/
def makeDirectoriesIn : List Path → Disk → Path → Except DiskError Unit × Disk
  | outer, d, p =>
    if p.bytes = [] then (.ok (), d)
    else
      match d.makeDirectory p with
      | .ok d => (.ok (), d)
      | .error .notFound =>
        match outer with
        | [] => (.error .noRoot, d)
        | q :: outer =>
          match makeDirectoriesIn outer d q with
          | (.error e, d) => (.error e, d)
          | (.ok (), d) =>
            match d.makeDirectory p with
            | .ok d => (.ok (), d)
            | .error e => (if d.isDirectory p then .ok () else .error e, d)
      | .error e => (if d.isDirectory p then .ok () else .error e, d)

/-- Creates a directory and those it lies in. -/
def makeDirectories (d : Disk) (p : Path) : Except DiskError Unit × Disk :=
  makeDirectoriesIn (p.ancestors.drop 1) d p

def makeParents (d : Disk) (p : Path) : Except DiskError Unit × Disk :=
  match p.parent? with
  | some parent => d.makeDirectories parent
  | none => (.ok (), d)

end Disk

end SvelteTypings
