import SvelteTypings.Path.Basic

/-!
# Maps by path

A map from paths to values in path order. Two spellings of one path are one key: replacing a value
keeps the spelling that came first. The order is part of the type, so a map holds no path twice.
-/

namespace SvelteTypings

/-- The entries stand in path order, each path once. -/
def InPathOrder {α : Type} (entries : List (Path × α)) : Prop :=
  entries.Pairwise fun a b => a.1.compare b.1 = .lt

structure PathMap (α : Type) where
  toList : List (Path × α)
  ordered : InPathOrder toList

namespace PathMap

variable {α : Type}

def empty : PathMap α := ⟨[], .nil⟩

instance : Inhabited (PathMap α) := ⟨empty⟩

def isEmpty (m : PathMap α) : Bool := m.toList.isEmpty

def size (m : PathMap α) : Nat := m.toList.length

def keys (m : PathMap α) : List Path := m.toList.map Prod.fst

def values (m : PathMap α) : List α := m.toList.map Prod.snd

/-- The entry of a path, with the key as it is spelled in the map. -/
def find? (m : PathMap α) (p : Path) : Option (Path × α) := m.toList.find? (·.1.same p)

def get? (m : PathMap α) (p : Path) : Option α := (m.find? p).map Prod.snd

def contains (m : PathMap α) (p : Path) : Bool := (m.find? p).isSome

/-- The path as it is spelled in the map, if it is a key there. -/
def spelling (m : PathMap α) (p : Path) : Path := ((m.find? p).map Prod.fst).getD p

/-- Places an entry: in order, and over the value of an equal key. -/
def insertEntry (p : Path) (a : α) : List (Path × α) → List (Path × α)
  | [] => [(p, a)]
  | (q, b) :: entries =>
    match p.compare q with
    | .lt => (p, a) :: (q, b) :: entries
    | .eq => (q, a) :: entries
    | .gt => (q, b) :: insertEntry p a entries

/-- A path that is not below a bound is not placed below it. -/
theorem lt_of_mem_insertEntry {p q : Path} {a : α} {entries : List (Path × α)} {e : Path × α}
    (hp : q.compare p = .lt) (hentries : ∀ f ∈ entries, q.compare f.1 = .lt)
    (he : e ∈ insertEntry p a entries) : q.compare e.1 = .lt := by
  induction entries with
  | nil =>
    rw [insertEntry, List.mem_singleton] at he
    rw [he]
    exact hp
  | cons f entries ih =>
    have hf := hentries f List.mem_cons_self
    have hrest := fun g hg => hentries g (List.mem_cons_of_mem f hg)
    rw [insertEntry] at he
    split at he
    · rcases List.mem_cons.1 he with rfl | he
      · exact hp
      · exact hentries e he
    · rcases List.mem_cons.1 he with rfl | he
      · exact hf
      · exact hrest e he
    · rcases List.mem_cons.1 he with rfl | he
      · exact hf
      · exact ih hrest he

theorem insertEntry_ordered (p : Path) (a : α) {entries : List (Path × α)}
    (h : InPathOrder entries) : InPathOrder (insertEntry p a entries) := by
  induction entries with
  | nil => exact List.pairwise_singleton _ _
  | cons f entries ih =>
    obtain ⟨hf, hrest⟩ := List.pairwise_cons.1 h
    rw [insertEntry]
    split
    · next hlt =>
      refine List.pairwise_cons.2 ⟨?_, h⟩
      intro e he
      rcases List.mem_cons.1 he with rfl | he
      · exact hlt
      · exact Path.compare_trans hlt (hf e he)
    · exact List.pairwise_cons.2 ⟨hf, hrest⟩
    · next hgt =>
      refine List.pairwise_cons.2 ⟨?_, ih hrest⟩
      intro e he
      exact lt_of_mem_insertEntry (Path.compare_gt_iff.1 hgt) hf he

/-- Changing values leaves the order of the keys. -/
theorem map_ordered {entries : List (Path × α)} (f : Path × α → Path × α)
    (hf : ∀ e, (f e).1 = e.1) (h : InPathOrder entries) : InPathOrder (entries.map f) := by
  refine List.pairwise_map.2 (h.imp ?_)
  intro a b hab
  rw [hf, hf]
  exact hab

def insert (m : PathMap α) (p : Path) (a : α) : PathMap α :=
  ⟨insertEntry p a m.toList, insertEntry_ordered p a m.ordered⟩

def erase (m : PathMap α) (p : Path) : PathMap α :=
  ⟨m.toList.filter fun e => !e.1.same p, m.ordered.filter _⟩

/-- Changes the value of a path, if it has one. -/
def modify (m : PathMap α) (p : Path) (f : α → α) : PathMap α where
  toList := m.toList.map fun e => (e.1, if e.1.same p then f e.2 else e.2)
  ordered := map_ordered _ (fun _ => rfl) m.ordered

def mapValues (m : PathMap α) (f : α → α) : PathMap α where
  toList := m.toList.map fun e => (e.1, f e.2)
  ordered := map_ordered _ (fun _ => rfl) m.ordered

/-- The map of the given entries; of two equal paths the later one gives the value. -/
def ofList (entries : List (Path × α)) : PathMap α :=
  entries.foldl (fun m (p, a) => m.insert p a) empty

end PathMap

end SvelteTypings
