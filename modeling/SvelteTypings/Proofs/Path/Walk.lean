import SvelteTypings.Proofs.Path.Rooted

/-!
# Walking along a path

A reader takes `../a//b` for a walk: out of the directory, then into `a`, then into `b`. Joining and
normalising does the same to segments, for every spelling, as long as the walk does not leave the
root (`normalize_join_of_walk`). Above the root they part: there the walk has nowhere to go, while
the normalisation keeps a `..`.
-/

namespace SvelteTypings.Path

/-! ## Joined bytes -/

/-- A separator splits the segments in front of it from those after it. -/
theorem split_append_separator_append (a b : List UInt8) :
    split (a ++ separator :: b) = split a ++ split b := by
  obtain ⟨front, last, hsplit⟩ := exists_split_eq a
  have hmem : ∀ s ∈ front ++ [last], separator ∉ s := fun s hs =>
    separator_not_mem_of_mem_split (hsplit ▸ hs)
  -- the bytes in front are their own segments, joined
  have ha : a = joined (front ++ [last]) := by rw [← hsplit, joined_split]
  rw [hsplit, ha]
  clear hsplit ha
  induction front with
  | nil => exact split_append_separator (hmem last List.mem_cons_self) b
  | cons s front ih =>
    rw [List.cons_append, List.forall_mem_cons] at hmem
    rw [List.cons_append, joined_cons (by simp), List.append_assoc, List.cons_append,
      split_append_separator hmem.1, ih hmem.2, List.cons_append]

/-- What is joined to an absolute path adds the components of its segments. A `.` in front of it is
lost. -/
theorem components_join {p q : Path} (hp : p.isAbsolute) (hq : q.isAbsolute = false) :
    (p.join q).components =
      p.components ++ (split q.bytes).filterMap Component.ofSegment? := by
  have hlead : (p.join q).lead = p.lead := by
    have hjoin := isAbsolute_join q hp
    rw [isAbsolute_eq_lead, decide_eq_true_iff] at hp hjoin
    rw [hp, hjoin]
  rw [components_eq_split, components_eq_split p, hlead, join, hq, if_neg Bool.false_ne_true,
    List.append_assoc, ← List.filterMap_append]
  congr 1
  split
  · next hend =>
    -- the path ends in a separator, after which it has an empty segment of its own
    obtain ⟨a, ha⟩ : ∃ a, p.bytes = a ++ [separator] := by
      rcases hend with hnil | hlast
      · rw [isAbsolute, hnil] at hp
        exact absurd hp (by decide)
      · exact List.getLast?_eq_some_iff.1 hlast
    have hbytes : p.bytes ++ q.bytes = a ++ separator :: q.bytes := by rw [ha]; simp
    rw [hbytes, ha, split_append_separator_append, split_append_separator_append, split,
      List.append_assoc, List.filterMap_append, List.filterMap_append, List.singleton_append,
      List.filterMap_cons_none ofSegment?_nil]
  · rw [split_append_separator_append]

/-! ## Walks -/

/-- Goes on by one component: `..` goes back over a name, and there is no way back from anything
else. -/
def Component.walk? (here : List Component) : Component → Option (List Component)
  | .current => some here
  | .parent =>
    match here.getLast? with
    | some (.name _) => some here.dropLast
    | _ => none
  | c => some (here ++ [c])

/-- Where a directory lies. A `..` in its own spelling is gone back over first, unless that would
lead over the root. -/
def place (directory : Path) : List Component :=
  (directory.components.foldlM Component.walk? []).getD directory.components

/-- Where a walk from a directory along a path ends, if it never goes back over the root. -/
def walk? (directory p : Path) : Option (List Component) :=
  p.components.foldlM Component.walk? directory.place

variable {here there cs : List Component} {c : Component}

/-- A step of a walk does to components what a step of the normalisation does to segments. -/
theorem pushed_of_walk (h : Component.walk? here c = some there) :
    pushed (here.foldl pushed []) c = there.foldl pushed [] := by
  cases c with
  | current =>
    obtain rfl : here = there := Option.some.inj h
    rfl
  | parent =>
    rw [Component.walk?] at h
    split at h
    · next n hlast =>
      -- the name that is gone back over was the last segment
      obtain ⟨front, rfl⟩ := List.getLast?_eq_some_iff.1 hlast
      rw [List.dropLast_concat, Option.some.injEq] at h
      have hsegments : (front ++ [Component.name n]).foldl pushed [] =
          front.foldl pushed [] ++ [n] := by
        rw [List.foldl_append]
        rfl
      rw [← h, hsegments, pushed, if_neg (by simp), List.dropLast_concat]
    · exact absurd h (by simp)
  | root =>
    obtain rfl : here ++ [Component.root] = there := Option.some.inj h
    rw [List.foldl_append]
    rfl
  | name n =>
    obtain rfl : here ++ [Component.name n] = there := Option.some.inj h
    rw [List.foldl_append]
    rfl

theorem foldl_pushed_of_walk (h : cs.foldlM Component.walk? here = some there) :
    cs.foldl pushed (here.foldl pushed []) = there.foldl pushed [] := by
  induction cs generalizing here with
  | nil =>
    obtain rfl : here = there := Option.some.inj h
    rfl
  | cons c cs ih =>
    rw [List.foldlM_cons] at h
    obtain ⟨next, hnext, hrest⟩ := Option.bind_eq_some_iff.1 h
    rw [List.foldl_cons, pushed_of_walk hnext]
    exact ih hrest

theorem foldl_pushed_place (directory : Path) :
    directory.place.foldl pushed [] = directory.components.foldl pushed [] := by
  rw [place]
  cases hwalk : directory.components.foldlM Component.walk? [] with
  | none => rfl
  | some there => exact (foldl_pushed_of_walk hwalk).symm

/-- A `.` in front of a path counts for nothing. -/
theorem foldl_pushed_components {p : Path} (hp : p.isAbsolute = false) (ss : List Segment) :
    p.components.foldl pushed ss =
      ((split p.bytes).filterMap Component.ofSegment?).foldl pushed ss := by
  rw [isAbsolute_eq_lead, decide_eq_false_iff_not] at hp
  rw [components_eq_split, List.foldl_append]
  cases hlead : p.lead with
  | absolute => exact absurd hlead hp
  | here => rfl
  | none => rfl

/-- **Joining and normalising walks.** Where a walk from an absolute directory ends on the components
of a canonical path, that very path is what normalisation gives. -/
theorem normalize_join_of_walk {directory p target : Path} (hdirectory : directory.isAbsolute)
    (hp : p.isAbsolute = false) (htarget : IsRooted target)
    (h : directory.walk? p = some target.components) :
    (directory.join p).normalize = target := by
  have hfold : (directory.join p).components.foldl pushed [] =
      target.components.foldl pushed [] := by
    have hwalk := foldl_pushed_of_walk h
    rw [foldl_pushed_place, foldl_pushed_components hp] at hwalk
    rw [components_join hdirectory hp, List.foldl_append]
    exact hwalk
  rw [normalize_eq_written, isAbsolute_join p hdirectory, hfold, ← htarget.absolute,
    ← normalize_eq_written]
  exact htarget.canonical.normalize_eq

end SvelteTypings.Path
