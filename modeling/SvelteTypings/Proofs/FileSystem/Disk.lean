import SvelteTypings.FileSystem.Disk
import SvelteTypings.Proofs.Path.Canonical

/-!
# What an operation changes on a disk

A path leads to the same location whatever is on the disk (`location`), if it leads anywhere.
Creating directories only adds directories, at the locations of the paths asked for (`Extends`), and
writing a file changes one location (`write_ok`). A path without `..` that something can be written
to is present if something is there (`present_of_write`); one with `..` may lead through a directory
that is missing.
-/

namespace SvelteTypings

/-- The directories that a path lies in, innermost first. -/
def Path.outer (p : Path) : List Path :=
  match p.parent? with
  | some parent => parent.ancestors
  | none => []

namespace Disk

open SvelteTypings.Path (Segment upward)

variable {d d' d'' : Disk} {l l' m : Location} {n : Node} {p q : Path} {ps qs : List Path}
  {s : Segment} {ss ss' : List Segment}

/-! ## Nodes -/

theorem compareBytes_eq_iff {a b : List UInt8} : Path.compareBytes a b = .eq ↔ a = b := by
  show Ord.compare a b = .eq ↔ _
  exact Std.LawfulEqCmp.compare_eq_iff_eq

theorem compareLocations_eq_iff : compareLocations l l' = .eq ↔ l = l' := by
  induction l generalizing l' with
  | nil => cases l' <;> simp [compareLocations]
  | cons s l ih =>
    cases l' with
    | nil => simp [compareLocations]
    | cons s' l' =>
      rw [compareLocations, Ordering.then_eq_eq, ih, compareBytes_eq_iff, List.cons.injEq]

theorem find?_insertNode (l : Location) (n : Node) (nodes : List (Location × Node))
    (l' : Location) :
    (insertNode l n nodes).find? (·.1 = l') =
      if l = l' then some (l, n) else nodes.find? (·.1 = l') := by
  induction nodes with
  | nil =>
    rw [insertNode, List.find?_cons]
    by_cases h : l = l' <;> simp [h]
  | cons e nodes ih =>
    obtain ⟨k, n'⟩ := e
    rw [insertNode]
    split
    · rw [List.find?_cons]
      by_cases h : l = l' <;> simp [h]
    · next hcompare =>
      obtain rfl := compareLocations_eq_iff.1 hcompare
      rw [List.find?_cons, List.find?_cons]
      by_cases h : l = l' <;> simp [h]
    · next hcompare =>
      have hne : k ≠ l := fun heq => by
        rw [compareLocations_eq_iff.2 heq.symm] at hcompare
        exact absurd hcompare (by simp)
      rw [List.find?_cons, ih, List.find?_cons]
      by_cases h : l = l'
      · simp [← h, hne]
      · simp [h]

/-- **Placing a node changes one location.** -/
theorem node?_insert (hl : l ≠ []) (n : Node) (l' : Location) :
    (d.insert l n).node? l' = if l' = l then some n else d.node? l' := by
  rw [node?, node?, insert, find?_insertNode]
  by_cases hroot : l' = []
  · rw [if_pos hroot, if_pos hroot, hroot, if_neg (Ne.symm hl)]
  · rw [if_neg hroot, if_neg hroot]
    by_cases h : l = l'
    · simp [h]
    · rw [if_neg h, if_neg (Ne.symm h)]

/-- Whatever there is lies in a directory. -/
def IsTree (d : Disk) : Prop := ∀ l s, d.node? (l ++ [s]) ≠ none → d.node? l = some .directory

theorem IsTree.directory_of_append (hd : d.IsTree) (h : d.node? (l ++ m) ≠ none) (hm : m ≠ []) :
    d.node? l = some .directory := by
  induction m generalizing l with
  | nil => exact absurd rfl hm
  | cons s m ih =>
    by_cases hnil : m = []
    · exact hd l s (hnil ▸ h)
    · rw [← List.singleton_append, ← List.append_assoc] at h
      exact hd l s (by rw [ih h hnil]; simp)

theorem IsTree.insert (hd : d.IsTree) (houter : d.node? m = some .directory)
    (hn : d.node? (m ++ [s]) = some .directory → n = .directory) :
    (d.insert (m ++ [s]) n).IsTree := by
  have hne : m ++ [s] ≠ [] := by simp
  intro l s' h
  rw [node?_insert hne] at h ⊢
  have hdirectory : d.node? l = some .directory := by
    split at h
    · next heq =>
      obtain ⟨rfl, -⟩ := List.append_inj' heq rfl
      exact houter
    · exact hd l s' h
  split
  · next heq => rw [hn (heq ▸ hdirectory)]
  · exact hdirectory

/-- It is enough to look at what is there. -/
theorem isTree_of_nodes (h : ∀ e ∈ d.nodes, d.node? e.1.dropLast = some .directory) : d.IsTree := by
  intro l s hnode
  rw [node?, if_neg (by simp)] at hnode
  cases hfind : d.nodes.find? (·.1 = l ++ [s]) with
  | none => exact absurd (by rw [hfind]; rfl) hnode
  | some e =>
    have hlocation : e.1 = l ++ [s] := by simpa using List.find?_some hfind
    have houter := h e (List.mem_of_find?_eq_some hfind)
    rwa [hlocation, List.dropLast_concat] at houter

/-! ## Locations -/

/-- Goes on by one segment. -/
def step (l : Location) (s : Segment) : Location :=
  if Path.isVoid s then l else if s = upward then l.dropLast else l ++ [s]

/-- Where a path leads. -/
def location (d : Disk) (p : Path) : Location := (Path.split p.bytes).foldl step (d.start p)

theorem location_congr (h : d'.current = d.current) (p : Path) : d'.location p = d.location p := by
  rw [location, location, start, start, h]

theorem expectDirectory_eq_ok_iff :
    d.expectDirectory l = .ok () ↔ d.node? l = some .directory := by
  rw [expectDirectory]
  split <;> simp_all

theorem walk_cons_eq_ok (h : d.walk l (s :: ss) = .ok m) :
    d.node? l = some .directory ∧ d.walk (step l s) ss = .ok m ∧
      (Path.isVoid s = false → s ≠ upward → s.length ≤ maxName) := by
  rw [walk] at h
  split at h
  · exact absurd h (by simp)
  · next hdirectory =>
    refine ⟨expectDirectory_eq_ok_iff.1 hdirectory, ?_⟩
    rw [step]
    split at h
    · next hvoid => exact ⟨by rwa [if_pos hvoid], fun hnot => absurd hvoid (by simp [hnot])⟩
    · next hvoid =>
      rw [if_neg hvoid]
      split at h
      · next hup => exact ⟨by rwa [if_pos hup], fun _ hnot => absurd hup hnot⟩
      · next hup =>
        split at h
        · exact absurd h (by simp)
        · next hlength => exact ⟨by rwa [if_neg hup], fun _ _ => Nat.le_of_not_lt hlength⟩

theorem walk_eq_foldl (h : d.walk l ss = .ok m) : m = ss.foldl step l := by
  induction ss generalizing l with
  | nil => exact (Except.ok.inj h).symm
  | cons s ss ih => exact ih (walk_cons_eq_ok h).2.1

theorem walk_append (d : Disk) (l : Location) (ss ss' : List Segment) :
    d.walk l (ss ++ ss') = (d.walk l ss).bind fun m => d.walk m ss' := by
  induction ss generalizing l with
  | nil => rfl
  | cons s ss ih =>
    rw [List.cons_append, walk, walk]
    split
    · rfl
    · split
      · exact ih l
      · split
        · exact ih _
        · split
          · rfl
          · exact ih _

/-- Without `..` a walk only leads further in. -/
theorem prefix_foldl_step (h : upward ∉ ss) (l : Location) : l <+: ss.foldl step l := by
  induction ss generalizing l with
  | nil => exact List.prefix_refl l
  | cons s ss ih =>
    obtain ⟨hs, hss⟩ := not_or.1 (mt List.mem_cons.2 h)
    refine List.IsPrefix.trans ?_ (ih hss _)
    rw [step]
    split
    · exact List.prefix_refl l
    · rw [if_neg (Ne.symm hs)]
      exact List.prefix_append l [s]

/-- A walk without `..` can be done on every disk that has the directories on its way. -/
theorem walk_of_directories (h : d'.walk l ss = .ok m) (hss : upward ∉ ss)
    (hdirectory : ∀ k, k <+: m → d.node? k = some .directory) : d.walk l ss = .ok m := by
  induction ss generalizing l with
  | nil => exact h
  | cons s ss ih =>
    obtain ⟨-, hrest, hlength⟩ := walk_cons_eq_ok h
    have hbegins : l <+: m := by
      rw [walk_eq_foldl h]
      exact prefix_foldl_step hss l
    obtain ⟨hs, hss⟩ := not_or.1 (mt List.mem_cons.2 hss)
    have hihs := ih hrest hss
    rw [walk, expectDirectory_eq_ok_iff.2 (hdirectory l hbegins)]
    rw [step] at hihs
    by_cases hvoid : Path.isVoid s
    · rw [if_pos hvoid] at hihs
      simpa [hvoid] using hihs
    · rw [if_neg hvoid, if_neg (Ne.symm hs)] at hihs
      have hle : ¬ maxName < s.length := Nat.not_lt.2 (hlength (by simpa using hvoid) (Ne.symm hs))
      simp only [hvoid, Ne.symm hs, hle]
      exact hihs

/-! ## Targets -/

theorem foldl_step_nil (h : ∀ s ∈ ss, s = []) (l : Location) : ss.foldl step l = l := by
  induction ss with
  | nil => rfl
  | cons s ss ih =>
    obtain ⟨rfl, hss⟩ := List.forall_mem_cons.1 h
    exact ih hss

/-- The last segment of a path that is not empty is followed by empty ones only. -/
theorem exists_split_of_lastSegment (h : Path.isVoid (lastSegment p).2.1 = false) :
    ∃ ends, Path.split p.bytes = (lastSegment p).1 ++ (lastSegment p).2.1 :: ends ∧
      (∀ s ∈ ends, s = []) ∧ (lastSegment p).2.2 = !ends.isEmpty := by
  have hsplit := (Path.split p.bytes).reverse.takeWhile_append_dropWhile (p := (· = []))
  rw [lastSegment] at h ⊢
  generalize hends : (Path.split p.bytes).reverse.takeWhile (· = []) = ends at hsplit h ⊢
  have hempty : ∀ s ∈ ends, s = [] := fun s hs =>
    of_decide_eq_true (List.all_eq_true.1 (List.all_takeWhile (p := (· = []))) s (hends ▸ hs))
  cases hdrop : (Path.split p.bytes).reverse.dropWhile (· = []) with
  | nil =>
    rw [hdrop] at h
    exact absurd h (by simp [Path.isVoid])
  | cons s before =>
    rw [hdrop] at hsplit
    refine ⟨ends.reverse, ?_, fun s hs => hempty s (List.mem_reverse.1 hs), ?_⟩
    · calc Path.split p.bytes = (ends ++ s :: before).reverse := by
            rw [hsplit, List.reverse_reverse]
        _ = before.reverse ++ s :: ends.reverse := by simp
    · simp

/-- Something new is asked for at a name in a directory. -/
structure IsTarget (d : Disk) (p : Path) (m : Location) (s : Segment) : Prop where
  path : expectPath p = .ok ()
  last : (lastSegment p).2.1 = s
  walk : d.walk (d.start p) (lastSegment p).1 = .ok m
  outer : d.node? m = some .directory
  named : Path.isVoid s = false
  ne_upward : s ≠ upward

theorem bind_eq_ok {ε α β : Type} {x : Except ε α} {f : α → Except ε β} {b : β} :
    (x >>= f) = .ok b ↔ ∃ a, x = .ok a ∧ f a = .ok b := by
  cases x with
  | error e =>
    exact ⟨fun h => absurd h (by simp [bind, Except.bind]), fun ⟨a, h, _⟩ => by simp at h⟩
  | ok a => exact ⟨fun h => ⟨a, rfl, h⟩, fun ⟨_, h, hf⟩ => Except.ok.inj h ▸ hf⟩

theorem target_eq (d : Disk) (p : Path) :
    d.target p = expectPath p >>= fun _ => d.walk (d.start p) (lastSegment p).1 >>= fun m =>
      d.expectDirectory m >>= fun _ =>
        pure (if Path.isVoid (lastSegment p).2.1 ∨ (lastSegment p).2.1 = upward then none
          else some (m ++ [(lastSegment p).2.1])) := rfl

theorem exists_isTarget (h : d.target p = .ok (some l)) :
    ∃ m s, l = m ++ [s] ∧ d.IsTarget p m s := by
  rw [target_eq] at h
  obtain ⟨⟨⟩, hpath, h⟩ := bind_eq_ok.1 h
  obtain ⟨m, hwalk, h⟩ := bind_eq_ok.1 h
  obtain ⟨⟨⟩, houter, h⟩ := bind_eq_ok.1 h
  have hname := Except.ok.inj h
  by_cases hnot : Path.isVoid (lastSegment p).2.1 ∨ (lastSegment p).2.1 = upward
  · exact absurd hname (by simp [hnot])
  · rw [if_neg hnot] at hname
    obtain ⟨hvoid, hup⟩ := not_or.1 hnot
    exact ⟨m, _, (Option.some.inj hname).symm, hpath, rfl, hwalk, expectDirectory_eq_ok_iff.1 houter,
      by simpa using hvoid, hup⟩

theorem IsTarget.location_eq (h : d.IsTarget p m s) : d.location p = m ++ [s] := by
  obtain ⟨ends, hsplit, hends, -⟩ := exists_split_of_lastSegment (by rw [h.last]; exact h.named)
  rw [h.last] at hsplit
  rw [location, hsplit, List.foldl_append, ← walk_eq_foldl h.walk, List.foldl_cons,
    foldl_step_nil hends,
    step, if_neg (by simp [h.named]), if_neg h.ne_upward]

theorem lookUp_eq_ok {there : Option Node} (h : d.lookUp l = .ok there) :
    (∀ s ∈ l, s.length ≤ maxName) ∧ d.node? l = there := by
  rw [lookUp] at h
  split at h
  · exact absurd h (by simp)
  · next hany =>
    refine ⟨fun s hs => Nat.le_of_not_lt fun hlt => hany ?_, Except.ok.inj h⟩
    exact List.any_eq_true.2 ⟨s, hs, decide_eq_true hlt⟩

/-! ## Creating directories -/

/-- Directories have been added where some paths lead, and nothing else has changed. -/
structure Extends (ps : List Path) (d d' : Disk) : Prop where
  current : d'.current = d.current
  nodes : ∀ l, d'.node? l = d.node? l ∨
    d.node? l = none ∧ d'.node? l = some .directory ∧ ∃ p ∈ ps, d.location p = l
  tree : d.IsTree → d'.IsTree

theorem Extends.refl (ps : List Path) (d : Disk) : Extends ps d d :=
  ⟨rfl, fun _ => Or.inl rfl, id⟩

theorem Extends.mono (h : Extends ps d d') (hps : ps ⊆ qs) : Extends qs d d' :=
  ⟨h.current, fun l => (h.nodes l).imp_right fun ⟨hnone, hnew, p, hp, hl⟩ =>
    ⟨hnone, hnew, p, hps hp, hl⟩, h.tree⟩

theorem Extends.trans (h : Extends ps d d') (h' : Extends ps d' d'') : Extends ps d d'' := by
  refine ⟨h'.current.trans h.current, fun l => ?_, fun hd => h'.tree (h.tree hd)⟩
  rcases h'.nodes l with heq | ⟨hnone, hnew, p, hp, hl⟩
  · rw [heq]
    exact h.nodes l
  · rcases h.nodes l with heq | ⟨-, hdirectory, -⟩
    · exact Or.inr ⟨heq ▸ hnone, hnew, p, hp, (location_congr h.current p).symm.trans hl⟩
    · exact absurd hdirectory (by simp [hnone])

/-- What is there stays. -/
theorem Extends.node?_eq (h : Extends ps d d') (hl : d.node? l = some n) : d'.node? l = some n := by
  rcases h.nodes l with heq | ⟨hnone, -⟩
  · rw [heq, hl]
  · exact absurd hl (by simp [hnone])

theorem makeDirectory_ok (h : d.makeDirectory p = .ok d') : Extends [p] d d' := by
  rw [makeDirectory] at h
  obtain ⟨target, htarget, h⟩ := bind_eq_ok.1 h
  cases target with
  | none => exact absurd h (by simp)
  | some l =>
    obtain ⟨there, hthere, h⟩ := bind_eq_ok.1 h
    cases there with
    | some n => exact absurd h (by simp)
    | none =>
      obtain rfl := Except.ok.inj h
      obtain ⟨m, s, rfl, hm⟩ := exists_isTarget htarget
      have hnone := (lookUp_eq_ok hthere).2
      refine ⟨rfl, fun l => ?_, fun hd => hd.insert hm.outer fun _ => rfl⟩
      rw [node?_insert (by simp)]
      split
      · next heq =>
        exact Or.inr ⟨heq ▸ hnone, rfl, p, List.mem_singleton_self p, hm.location_eq.trans heq.symm⟩
      · exact Or.inl rfl

theorem makeDirectoriesIn_ok (h : makeDirectoriesIn ps d p = (.ok (), d')) :
    Extends (p :: ps) d d' := by
  induction ps generalizing p d d' with
  | nil =>
    rw [makeDirectoriesIn] at h
    split at h
    · obtain ⟨-, rfl⟩ := Prod.mk.inj h
      exact Extends.refl _ d
    · split at h
      · next hmade =>
        obtain ⟨-, rfl⟩ := Prod.mk.inj h
        exact makeDirectory_ok hmade
      · exact absurd (Prod.mk.inj h).1 (by simp)
      · obtain ⟨-, rfl⟩ := Prod.mk.inj h
        exact Extends.refl _ d
  | cons q ps ih =>
    rw [makeDirectoriesIn] at h
    split at h
    · obtain ⟨-, rfl⟩ := Prod.mk.inj h
      exact Extends.refl _ d
    · split at h
      · next hmade =>
        obtain ⟨-, rfl⟩ := Prod.mk.inj h
        exact (makeDirectory_ok hmade).mono (List.cons_subset_cons p (List.nil_subset _))
      · -- the directories further out come first
        split at h
        · exact absurd (Prod.mk.inj h).1 (by simp)
        · next houter =>
          have hext := (ih houter).mono (List.subset_cons_self p _)
          split at h
          · next hmade =>
            obtain ⟨-, rfl⟩ := Prod.mk.inj h
            exact hext.trans
              ((makeDirectory_ok hmade).mono (List.cons_subset_cons p (List.nil_subset _)))
          · obtain ⟨-, rfl⟩ := Prod.mk.inj h
            exact hext
      · obtain ⟨-, rfl⟩ := Prod.mk.inj h
        exact Extends.refl _ d

theorem ancestors_eq_cons (p : Path) : p :: p.ancestors.drop 1 = p.ancestors := by
  rw [Path.ancestors]
  cases p.components.length with
  | zero => rfl
  | succ n =>
    rw [Path.ancestorsFrom]
    split <;> rfl

theorem makeParents_ok (h : d.makeParents p = (.ok (), d')) : Extends p.outer d d' := by
  rw [makeParents] at h
  split at h
  · next parent hparent =>
    rw [Path.outer, hparent]
    simp only
    rw [← ancestors_eq_cons]
    exact makeDirectoriesIn_ok h
  · obtain ⟨-, rfl⟩ := Prod.mk.inj h
    exact Extends.refl _ d

/-! ## Writing -/

/-- A file is written at the name that a path ends in. -/
structure IsWritten (d : Disk) (p : Path) (m : Location) (s : Segment) : Prop
    extends d.IsTarget p m s where
  ends : Path.split p.bytes = (lastSegment p).1 ++ [s]
  length : s.length ≤ maxName
  free : d.node? (m ++ [s]) ≠ some .directory

theorem write_ok {bytes : List UInt8} (h : d.write p bytes = .ok d') :
    ∃ m s, d.IsWritten p m s ∧ d' = d.insert (m ++ [s]) (.file bytes) := by
  rw [write] at h
  obtain ⟨target, htarget, h⟩ := bind_eq_ok.1 h
  cases target with
  | none => exact absurd h (by simp)
  | some l =>
    obtain ⟨m, s, rfl, hm⟩ := exists_isTarget htarget
    simp only at h
    split at h
    · exact absurd h (by simp)
    · next hslash =>
      obtain ⟨there, hthere, h⟩ := bind_eq_ok.1 h
      obtain ⟨ends, hsplit, -, hends⟩ :=
        exists_split_of_lastSegment (by rw [hm.last]; exact hm.named)
      have hnil : ends = [] := by simpa [hends] using hslash
      obtain ⟨hlength, hnode⟩ := lookUp_eq_ok hthere
      have hwritten : there ≠ some .directory ∧ d' = d.insert (m ++ [s]) (.file bytes) := by
        split at h
        · exact absurd h (by simp)
        · next hfree => exact ⟨hfree, (Except.ok.inj h).symm⟩
      refine ⟨m, s, ⟨hm, ?_, hlength s (by simp), hnode ▸ hwritten.1⟩, hwritten.2⟩
      rw [hsplit, hm.last, hnil]

theorem IsWritten.walk_split (h : d.IsWritten p m s) (hd : d''.current = d.current)
    (hup : upward ∉ Path.split p.bytes)
    (hdirectory : ∀ k, k <+: m → d''.node? k = some .directory) :
    d''.walk (d''.start p) (Path.split p.bytes) = .ok (m ++ [s]) := by
  rw [h.ends] at hup ⊢
  have hstart : d''.start p = d.start p := by rw [start, start, hd]
  have hwalk := walk_of_directories h.walk (mt (List.mem_append_left [s]) hup) hdirectory
  have hlast := expectDirectory_eq_ok_iff.2 (hdirectory m (List.prefix_refl m))
  rw [walk_append, hstart, hwalk]
  show d''.walk m [s] = _
  rw [walk, hlast]
  simp [h.named, h.ne_upward, Nat.not_lt.2 h.length, walk]

/-- **A path without `..` leads to what is there**, if something can be written to it. -/
theorem IsWritten.present (h : d'.IsWritten p m s) (hcurrent : d'.current = d.current)
    (hd : d.IsTree) (hup : upward ∉ Path.split p.bytes) (hn : d.node? (m ++ [s]) = some n) :
    d.present p := by
  have hdirectory : ∀ k, k <+: m → d.node? k = some .directory := by
    rintro k ⟨k', rfl⟩
    rw [List.append_assoc] at hn
    exact hd.directory_of_append (by rw [hn]; simp) (by simp)
  have hwalk := h.walk_split hcurrent.symm hup hdirectory
  have hstat : d.stat p = .ok n := by
    rw [stat, h.path]
    show (d.walk (d.start p) (Path.split p.bytes) >>= _) = _
    rw [hwalk]
    simp only [bind, Except.bind, hn]
    rfl
  rw [Disk.present, hstat]
  rfl

end Disk

end SvelteTypings
