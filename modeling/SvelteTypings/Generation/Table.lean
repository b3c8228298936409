import SvelteTypings.Path.Map
import SvelteTypings.Path.Suffix

/-!
# The table of components

For each component of a run the table holds its intermediate file and, once the compiler has written
it, its declaration file. The key of an entry is the path of the intermediate file.
-/

namespace SvelteTypings.Generation

structure Entry where
  component : Path
  source : String
  destination : Path
  /-- The text of the declaration file, once it has been written. -/
  output : Option String := none
  /-- The entry was added in the current pass. -/
  discovered : Bool := false
deriving DecidableEq

def Entry.isComplete (e : Entry) : Bool := e.output.isSome

structure Table where
  entries : PathMap Entry
deriving Inhabited

namespace Table

def empty : Table := ⟨.empty⟩

def keyFor (component : Path) : Path := component.appendSuffix Path.intermediateSuffix

def insert (t : Table) (e : Entry) : Table := ⟨t.entries.insert (keyFor e.component) e⟩

/-- Adds an entry that was found during a pass. -/
def insertDiscovered (t : Table) (e : Entry) : Table := t.insert { e with discovered := true }

def contains (t : Table) (key : Path) : Bool := t.entries.contains key

def get? (t : Table) (key : Path) : Option Entry := t.entries.get? key

def size (t : Table) : Nat := t.entries.size

def isEmpty (t : Table) : Bool := t.entries.isEmpty

def keys (t : Table) : List Path := t.entries.keys

/-- Begins a new pass, in which nothing has been discovered yet. -/
def clearDiscovered (t : Table) : Table :=
  ⟨t.entries.mapValues fun e => { e with discovered := false }⟩

/-- The keys of the entries that were added in the current pass. -/
def discoveredKeys (t : Table) : List Path :=
  (t.entries.toList.filter fun (_, e) => e.discovered).map Prod.fst

def incomplete (t : Table) : List Entry := t.entries.values.filter fun e => !e.isComplete

/-- The key of the entry that a declaration file belongs to. -/
def owner? (t : Table) (declaration : Path) : Option Path :=
  match declaration.stripSuffix? Path.declarationSuffix with
  | none => none
  | some component =>
    match t.get? (keyFor component) with
    | some e => if e.component.same component then some (keyFor component) else none
    | none => none

/-- Gives a declaration file to the entry it belongs to. -/
def capture (t : Table) (declaration : Path) (text : String) : Table :=
  match t.owner? declaration with
  | some key => ⟨t.entries.modify key fun e => { e with output := some text }⟩
  | none => t

/-- A declaration file that no entry owns changes nothing. -/
theorem capture_of_owner?_eq_none {t : Table} {declaration : Path}
    (h : t.owner? declaration = none) (text : String) : t.capture declaration text = t := by
  simp [capture, h]

end Table

end SvelteTypings.Generation
