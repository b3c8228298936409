import SvelteTypings.Cli.ProjectConfig
import SvelteTypings.Proofs.FileSystem.Locations
import SvelteTypings.Proofs.Json.Members

/-!
# Chains of configuration files

A configuration file may extend another one, and that one a third. The files that are read one after
the other form a *chain* (`Leads`). From an absolute path every chain comes to an end
(`exists_ends`): it cannot go on without reading a file again, under a path with the same normalised
spelling. A chain that breaks gives no options (`exists_error_of_leads`). In one that does not, each
key has the value of the first file that has the key.
-/

namespace SvelteTypings.Cli

open Json (Members Token)

variable {d : Disk} {p q dir : Path} {text key : String} {file : ConfigFile} {e : Failure}

/-! ## One file -/

/-- The directory from which a file means its paths. -/
def directoryOf (p : Path) : Path := p.parent?.getD ⟨[Path.dot]⟩

/-- What the file at a path holds. -/
def readConfig (d : Disk) (p : Path) : Except Failure ConfigFile :=
  match d.readText p with
  | .error e => .error (.configUnreadable p e.message)
  | .ok text =>
    match ConfigFile.ofText? text with
    | none => .error (.configMalformed p)
    | some file => .ok file

theorem exists_text_of_readConfig (h : readConfig d p = .ok file) :
    ∃ text, d.readText p = .ok text ∧ ConfigFile.ofText? text = some file := by
  unfold readConfig at h
  split at h
  · exact absurd h (by simp)
  · next text htext =>
    split at h
    · exact absurd h (by simp)
    · next hfile => exact ⟨text, htext, hfile.trans (congrArg some (Except.ok.inj h))⟩

namespace ConfigFile

variable {f f' : Fields} {ts rest : List Token}

/-- The options that have been read are in order. -/
def Fields.IsOrdered (f : Fields) : Prop := ∀ ms ∈ f.options, Members.IsOrdered ms

theorem Fields.isOrdered_empty : Fields.IsOrdered {} := fun _ h => absurd h (by simp)

theorem isOrdered_readExtended (hf : f.IsOrdered) (hts : ∀ t ∈ ts, t.IsOrdered)
    (h : readExtended f ts = some (f', rest)) : f'.IsOrdered ∧ ∀ t ∈ rest, t.IsOrdered := by
  unfold readExtended at h
  split at h
  · next hread _ =>
    obtain ⟨rfl, rfl⟩ := Prod.mk.inj (Option.some.inj h)
    exact ⟨hf, (Json.isOrdered_readValue hts hread).2⟩
  · next hread _ =>
    obtain ⟨rfl, rfl⟩ := Prod.mk.inj (Option.some.inj h)
    exact ⟨hf, (Json.isOrdered_readValue hts hread).2⟩
  · exact absurd h (by simp)

theorem isOrdered_readOptions (hts : ∀ t ∈ ts, t.IsOrdered)
    (h : readOptions f ts = some (f', rest)) : f'.IsOrdered ∧ ∀ t ∈ rest, t.IsOrdered := by
  unfold readOptions at h
  split at h
  · next ms _ hread _ =>
    obtain ⟨rfl, rfl⟩ := Prod.mk.inj (Option.some.inj h)
    obtain ⟨hms, hrest⟩ := Json.isOrdered_readValue hts hread
    exact ⟨fun ms' hms' => Option.some.inj hms' ▸ hms, hrest⟩
  · exact absurd h (by simp)

theorem isOrdered_readField (hf : f.IsOrdered) (hts : ∀ t ∈ ts, t.IsOrdered)
    (h : readField key f ts = some (f', rest)) : f'.IsOrdered ∧ ∀ t ∈ rest, t.IsOrdered := by
  unfold readField at h
  split at h
  · exact isOrdered_readExtended hf hts h
  · split at h
    · exact isOrdered_readOptions hts h
    · obtain ⟨⟨v, rest'⟩, hread, heq⟩ := Option.map_eq_some_iff.1 h
      obtain ⟨rfl, rfl⟩ := Prod.mk.inj heq
      exact ⟨hf, (Json.isOrdered_readValue hts hread).2⟩

theorem isOrdered_readMembers {n : Nat} (hf : f.IsOrdered) (hts : ∀ t ∈ ts, t.IsOrdered)
    (h : readMembers n f ts = some (f', rest)) : f'.IsOrdered := by
  induction n generalizing f ts with
  | zero => exact absurd h (by simp [readMembers])
  | succ n ih =>
    unfold readMembers at h
    split at h
    · exact absurd h (by simp)
    · next m key ts' hn =>
      obtain rfl : n = m := by simpa using hn
      obtain ⟨⟨g, rest'⟩, hfield, h⟩ := Option.bind_eq_some_iff.1 h
      have hts' : ∀ t ∈ ts', t.IsOrdered := fun t ht => hts t (by simp [ht])
      obtain ⟨hg, hrest'⟩ := isOrdered_readField hf hts' hfield
      simp only at h
      split at h
      · exact ih hg (List.forall_mem_cons.1 hrest').2 h
      · obtain ⟨rfl, -⟩ := Prod.mk.inj (Option.some.inj h)
        exact hg
      · exact absurd h (by simp)
    · exact absurd h (by simp)

theorem isOrdered_readItems (hts : ∀ t ∈ ts, t.IsOrdered)
    (h : readItems ts = some (f, rest)) : f.IsOrdered := by
  unfold readItems at h
  split at h
  · obtain ⟨rfl, -⟩ := Prod.mk.inj (Option.some.inj h)
    exact Fields.isOrdered_empty
  · obtain ⟨⟨g, rest'⟩, hextended, h⟩ := Option.bind_eq_some_iff.1 h
    obtain ⟨hg, hrest'⟩ := isOrdered_readExtended Fields.isOrdered_empty hts hextended
    simp only at h
    split at h
    · obtain ⟨rfl, -⟩ := Prod.mk.inj (Option.some.inj h)
      exact hg
    · obtain ⟨⟨g', rest''⟩, hoptions, h⟩ := Option.bind_eq_some_iff.1 h
      simp only at h
      split at h
      · obtain ⟨rfl, -⟩ := Prod.mk.inj (Option.some.inj h)
        exact (isOrdered_readOptions (List.forall_mem_cons.1 hrest').2 hoptions).1
      · exact absurd h (by simp)
    · exact absurd h (by simp)

/-- The options of a file are in order, each key once. -/
theorem isOrdered_options (h : ofText? text = some file) : Members.IsOrdered file.options := by
  obtain ⟨ts, htokens, h⟩ := Option.bind_eq_some_iff.1 h
  have hts := Json.isOrdered_tokensFrom htokens
  unfold ofTokens? at h
  simp only at h
  split at h
  · next f hread =>
    rw [← Option.some.inj h]
    have hf : f.IsOrdered := by
      split at hread
      · obtain ⟨rfl, -⟩ := Prod.mk.inj (Option.some.inj hread)
        exact Fields.isOrdered_empty
      · exact isOrdered_readMembers Fields.isOrdered_empty (List.forall_mem_cons.1 hts).2 hread
      · exact isOrdered_readItems (List.forall_mem_cons.1 hts).2 hread
      · exact absurd hread (by simp)
    unfold Fields.file
    cases hoptions : f.options with
    | none => exact Members.isOrdered_nil
    | some ms => exact hf ms hoptions
  · exact absurd h (by simp)

end ConfigFile

/-! ## Extended files -/

theorem isAbsolute_withJson (hp : p.isAbsolute) : (withJson p).isAbsolute := by
  unfold withJson
  split
  · split
    · exact hp
    · rw [Path.lead_of_isAbsolute hp]
      rfl
  · exact hp

theorem isAbsolute_extendedPath (hdir : dir.isAbsolute) (d : Disk) (specifier : String) :
    (extendedPath d dir specifier).isAbsolute := by
  have hwithin : ∀ base : Path, base.isAbsolute →
      (withJson ((base.join packages).join (.ofString specifier))).isAbsolute := fun base hbase =>
    isAbsolute_withJson (Path.isAbsolute_join _ (Path.isAbsolute_join _ hbase))
  unfold extendedPath
  simp only
  split
  · exact isAbsolute_withJson (Path.isAbsolute_join _ hdir)
  · cases hfind : (dir.ancestors.map fun base =>
        withJson ((base.join packages).join (.ofString specifier))).find? d.isFile with
    | none => exact hwithin dir hdir
    | some q =>
      obtain ⟨base, hbase, rfl⟩ := List.mem_map.1 (List.mem_of_find?_eq_some hfind)
      exact hwithin base (Path.isAbsolute_of_mem_ancestors hdir hbase)

/-- An absolute path without a parent leads to the root. -/
theorem location_eq_nil_of_parent? (hp : p.isAbsolute) (h : p.parent? = none) (d : Disk) :
    d.location p = [] := by
  have hsegments : p.segments.filterMap Path.Component.ofSegment? = [] := by
    unfold Path.parent? at h
    split at h
    · next hend =>
      rw [Path.dropVoidEnd, List.reverse_eq_nil_iff, List.dropWhile_eq_nil_iff] at hend
      refine List.filterMap_eq_nil_iff.2 fun s hs => ?_
      exact if_pos (hend s (List.mem_reverse.2 hs))
    · exact absurd h (by simp)
  rw [Disk.location_eq_names hp, Path.displacement, Path.components, Path.lead_of_isAbsolute hp,
    hsegments]
  rfl

theorem isAbsolute_directoryOf (hp : p.isAbsolute) (h : readConfig d p = .ok file) :
    (directoryOf p).isAbsolute := by
  obtain ⟨text, htext, -⟩ := exists_text_of_readConfig h
  unfold directoryOf
  cases hparent : p.parent? with
  | none =>
    -- there is nothing to read at the root
    exact absurd (location_eq_nil_of_parent? hp hparent d) (Disk.location_mem_of_readText htext).1
  | some directory => exact Path.isAbsolute_of_parent? hp hparent

/-! ## Chains -/

/-- A file of a chain, with the path under which it was read. -/
structure Link where
  path : Path
  file : ConfigFile

/-- The value that a file gives to a key. An output directory is meant from the file's directory. -/
def Link.value? (l : Link) (key : String) : Option Json :=
  (Members.get? key l.file.options).map (anchored (directoryOf l.path) key)

/-- The files read from `p` on, each extended by the one before it, and the path that comes next. -/
inductive Leads (d : Disk) : Path → List Link → Path → Prop
  | here (p : Path) : Leads d p [] p
  | extend {p q : Path} {file : ConfigFile} {specifier : String} {links : List Link} :
    readConfig d p = .ok file → file.extended = some specifier →
      Leads d (extendedPath d (directoryOf p) specifier) links q → Leads d p (⟨p, file⟩ :: links) q

/-- A path leads to a file that was read already. Of two paths that climb above the root, one an
even and one an odd number of times, neither counts for the other. -/
def Revisits (d : Disk) (links : List Link) (q : Path) : Prop :=
  ∃ l ∈ links, d.location l.path = d.location q ∧
    l.path.displacement.up % 2 = q.displacement.up % 2

/-- The chain from a path comes back to a file, or to one that cannot be read. -/
def Breaks (d : Disk) (p : Path) : Prop :=
  ∃ links q, Leads d p links q ∧ (Revisits d links q ∨ ∃ e, readConfig d q = .error e)

variable {links before : List Link} {n : Nat} {specifier : String} {base own : Members}

/-! ## One step -/

/-- **A step of the reader**: it stops at a path that was visited or cannot be read, or else reads
the file and goes on to the one it extends. -/
theorem loadMembers_succ (d : Disk) (n : Nat) (visited : List Path) (p : Path) :
    loadMembers d (n + 1) visited p =
      if visited.any p.normalize.same then .error (.configCycle p)
      else (readConfig d p).bind fun file =>
        match file.extended with
        | none => .ok (layered (directoryOf p) [] file.options)
        | some specifier =>
          (loadMembers d n (p.normalize :: visited) (extendedPath d (directoryOf p) specifier)).map
            (layered (directoryOf p) · file.options) := by
  rw [loadMembers]
  split
  · rfl
  · unfold readConfig
    cases d.readText p with
    | error e => rfl
    | ok text =>
      simp only
      cases ConfigFile.ofText? text with
      | none => rfl
      | some file =>
        obtain ⟨extended, options⟩ := file
        cases extended with
        | none => rfl
        | some specifier =>
          simp only [Except.bind, directoryOf]
          generalize loadMembers d n _ _ = result
          cases result <;> rfl

theorem isOrdered_layered (hbase : Members.IsOrdered base) (dir : Path) (own : Members) :
    Members.IsOrdered (layered dir base own) := by
  unfold layered
  induction own generalizing base with
  | nil => exact hbase
  | cons m own ih => exact ih (hbase.set m.1 _)

/-- **The options of a file count over those it extends.** -/
theorem get?_layered (h : readConfig d p = .ok file) (base : Members) (key : String) :
    Members.get? key (layered (directoryOf p) base file.options) =
      (Link.value? ⟨p, file⟩ key).or (Members.get? key base) := by
  obtain ⟨text, -, hfile⟩ := exists_text_of_readConfig h
  exact Members.get?_foldl_set (ConfigFile.isOrdered_options hfile) _ key base

/-! ## What was read -/

/-- The files read so far: from absolute paths, and none a second time. -/
structure Trail (d : Disk) (before : List Link) : Prop where
  absolute : ∀ l ∈ before, l.path.isAbsolute
  read : ∀ l ∈ before, readConfig d l.path = .ok l.file
  nodup : (before.map fun l => l.path.normalize).Nodup

theorem trail_nil (d : Disk) : Trail d [] :=
  ⟨List.forall_mem_nil _, List.forall_mem_nil _, List.nodup_nil⟩

/-- The reader knows a path it was at by the normalised spelling. -/
theorem any_same_iff (hbefore : ∀ l ∈ before, l.path.isAbsolute) (hp : p.isAbsolute) (d : Disk) :
    (before.map fun l => l.path.normalize).any p.normalize.same ↔ Revisits d before p := by
  rw [List.any_map, List.any_eq_true]
  refine exists_congr fun l => and_congr_right fun hl => ?_
  rw [← Disk.normalize_eq_iff (hbefore l hl) hp d]
  constructor
  · exact fun h =>
      ((Path.isCanonical_normalize p).eq_of_same (Path.isCanonical_normalize l.path) h).symm
  · intro h
    show p.normalize.same l.path.normalize
    rw [h]
    exact Path.same_refl _

theorem Trail.cons (h : Trail d before) (hp : p.isAbsolute) (hread : readConfig d p = .ok file)
    (hnew : ¬ Revisits d before p) : Trail d (⟨p, file⟩ :: before) := by
  refine ⟨List.forall_mem_cons.2 ⟨hp, h.absolute⟩, List.forall_mem_cons.2 ⟨hread, h.read⟩, ?_⟩
  refine List.nodup_cons.2 ⟨fun hmem => hnew ?_, h.nodup⟩
  rw [← any_same_iff h.absolute hp, List.any_eq_true]
  exact ⟨_, hmem, Path.same_refl _⟩

/-- **No chain is longer than twice the disk.** -/
theorem Trail.length_le (h : Trail d before) : before.length ≤ 2 * d.nodes.length := by
  rw [← List.length_map (f := fun l : Link => l.path.normalize)]
  refine Disk.length_le_of_nodup h.nodup fun q hq => ?_
  obtain ⟨l, hl, rfl⟩ := List.mem_map.1 hq
  obtain ⟨text, htext, -⟩ := exists_text_of_readConfig (h.read l hl)
  exact Disk.normalize_mem_spellings (h.absolute l hl) htext

/-! ## Whole chains -/

/-- The object in which each key has the value of the first file that has the key. -/
structure IsLayered (links : List Link) (object : Members) : Prop where
  ordered : Members.IsOrdered object
  get? : ∀ key, Members.get? key object = links.findSome? (·.value? key)

/-- How a chain ends at `q`, and what comes of it. -/
inductive Ends (d : Disk) (before links : List Link) (q : Path) : Except Failure Members → Prop
  | cycle : Revisits d (before ++ links) q → Ends d before links q (.error (.configCycle q))
  | broken {e : Failure} : readConfig d q = .error e → Ends d before links q (.error e)
  | whole {file : ConfigFile} {object : Members} : readConfig d q = .ok file →
    file.extended = none → IsLayered (links ++ [⟨q, file⟩]) object →
      Ends d before links q (.ok object)

theorem IsLayered.cons {object : Members} (h : IsLayered links object)
    (hread : readConfig d p = .ok file) :
    IsLayered (⟨p, file⟩ :: links) (layered (directoryOf p) object file.options) := by
  refine ⟨isOrdered_layered h.ordered _ _, fun key => ?_⟩
  rw [get?_layered hread, h.get?, List.findSome?_cons]
  cases Link.value? ⟨p, file⟩ key <;> rfl

theorem isLayered_nil : IsLayered [] [] := ⟨Members.isOrdered_nil, fun _ => rfl⟩

/-- It does not matter whether a file was read before or stands first in the rest of the chain. -/
theorem revisits_cons_append {l : Link} :
    Revisits d ((l :: before) ++ links) q ↔ Revisits d (before ++ l :: links) q := by
  unfold Revisits
  simp [or_left_comm]

/-- **A chain comes to an end** before the bound does, and decides what the reader gives. -/
theorem exists_ends (hbefore : Trail d before) (hp : p.isAbsolute)
    (hn : 2 * d.nodes.length < n + before.length) :
    ∃ links q, Leads d p links q ∧ Ends d before links q
      (loadMembers d n (before.map fun l => l.path.normalize) p) := by
  -- Every step adds a file to the trail, and no trail is longer than twice the number of nodes.
  induction n generalizing before p with
  | zero =>
    have hle := hbefore.length_le
    omega
  | succ n ih =>
    rw [loadMembers_succ]
    by_cases hvisited : Revisits d before p
    · rw [if_pos ((any_same_iff hbefore.absolute hp d).2 hvisited)]
      exact ⟨[], p, .here p, .cycle (by rwa [List.append_nil])⟩
    · rw [if_neg (mt (any_same_iff hbefore.absolute hp d).1 hvisited)]
      cases hread : readConfig d p with
      | error e => exact ⟨[], p, .here p, .broken hread⟩
      | ok file =>
        cases hextended : file.extended with
        | none =>
          refine ⟨[], p, .here p, ?_⟩
          simp only [Except.bind, hextended]
          exact .whole hread hextended (isLayered_nil.cons hread)
        | some specifier =>
          have hnext := isAbsolute_extendedPath (isAbsolute_directoryOf hp hread) d specifier
          have hlength : 2 * d.nodes.length < n + (⟨p, file⟩ :: before : List Link).length := by
            rw [List.length_cons]
            omega
          obtain ⟨links, q, hleads, hends⟩ :=
            ih (hbefore.cons hp hread hvisited) hnext hlength
          refine ⟨⟨p, file⟩ :: links, q, .extend hread hextended hleads, ?_⟩
          rw [List.map_cons] at hends
          simp only [Except.bind, hextended]
          generalize loadMembers d n _ _ = result at hends ⊢
          cases hends with
          | cycle hrevisits => exact .cycle (revisits_cons_append.1 hrevisits)
          | broken hbroken => exact .broken hbroken
          | whole hlast hnone hlayered => exact .whole hlast hnone (hlayered.cons hread)

/-- **A chain that breaks gives nothing**, wherever it breaks. -/
theorem exists_error_of_leads (h : Leads d p links q) (hp : p.isAbsolute)
    (hbefore : ∀ l ∈ before, l.path.isAbsolute)
    (hbreaks : Revisits d (before ++ links) q ∨ ∃ e, readConfig d q = .error e) (n : Nat) :
    ∃ e, loadMembers d n (before.map fun l => l.path.normalize) p = .error e := by
  induction h generalizing before n with
  | here p =>
    cases n with
    | zero => exact ⟨_, rfl⟩
    | succ n =>
      rw [loadMembers_succ]
      split
      · exact ⟨_, rfl⟩
      · next hnot =>
        rcases hbreaks with hrevisits | ⟨e, he⟩
        · rw [List.append_nil] at hrevisits
          exact absurd ((any_same_iff hbefore hp d).2 hrevisits) hnot
        · rw [he]
          exact ⟨e, rfl⟩
  | @extend p q file specifier links hread hextended hleads ih =>
    cases n with
    | zero => exact ⟨_, rfl⟩
    | succ n =>
      rw [loadMembers_succ]
      split
      · exact ⟨_, rfl⟩
      · have hnext := isAbsolute_extendedPath (isAbsolute_directoryOf hp hread) d specifier
        have hrest : Revisits d ((⟨p, file⟩ :: before) ++ links) q ∨
            ∃ e, readConfig d q = .error e := hbreaks.imp_left revisits_cons_append.2
        obtain ⟨e, he⟩ := ih hnext (List.forall_mem_cons.2 ⟨hp, hbefore⟩) hrest n
        rw [List.map_cons] at he
        rw [hread]
        simp only [Except.bind, hextended]
        rw [he]
        exact ⟨e, rfl⟩

/-! ## Loading -/

theorem add_length_le_foldl {α : Type} {f : Nat → α → Nat} (hf : ∀ n a, n < f n a) (as : List α)
    (n : Nat) : n + as.length ≤ as.foldl f n := by
  induction as generalizing n with
  | nil => exact Nat.le_refl n
  | cons a as ih =>
    have ha := hf n a
    have hrest := ih (f n a)
    rw [List.length_cons, List.foldl_cons]
    omega

theorem lt_chainBound (d : Disk) : 2 * d.nodes.length < chainBound d := by
  have hlt : ∀ (n : Nat) (e : Location × Node), n < n + e.1.length + 1 := fun n e =>
    Nat.lt_succ_of_le (Nat.le_add_right n e.1.length)
  apply Nat.lt_succ_of_le
  calc 2 * d.nodes.length ≤ 4 * (0 + d.nodes.length) := by omega
    _ ≤ 4 * _ := Nat.mul_le_mul_left 4 (add_length_le_foldl hlt d.nodes 0)

/-- What is built from the object of a whole chain. -/
def built (p : Path) (object : Members) : Except Failure ProjectConfig :=
  match CompilerOptions.ofMembers? object with
  | some options => .ok ⟨some p, options⟩
  | none => .error (.configInvalid p)

theorem load_eq (d : Disk) (p : Path) :
    ProjectConfig.load d p = (loadMembers d (chainBound d) [] p).bind (built p) := by
  unfold ProjectConfig.load
  cases loadMembers d (chainBound d) [] p with
  | error e => rfl
  | ok object => rfl

/-- **A configuration is read along its chain.** A chain that comes back to a file, or to a path
that cannot be read, fails with such a path. Every other chain ends at a file that extends none, and
the options are built from the object in which each key has the value of the first file of the chain
that has the key, an output directory as a path from that file's directory. -/
theorem load_of_isAbsolute (hp : p.isAbsolute) (d : Disk) :
    (Breaks d p → ∃ links q, Leads d p links q ∧
      (Revisits d links q ∧ ProjectConfig.load d p = .error (.configCycle q) ∨
        ∃ e, readConfig d q = .error e ∧ ProjectConfig.load d p = .error e)) ∧
      (¬ Breaks d p → ∃ links q file object, Leads d p links q ∧ readConfig d q = .ok file ∧
        file.extended = none ∧ IsLayered (links ++ [⟨q, file⟩]) object ∧
        ProjectConfig.load d p = built p object) := by
  have hbound : 2 * d.nodes.length < chainBound d + ([] : List Link).length := lt_chainBound d
  obtain ⟨links, q, hleads, hends⟩ := exists_ends (trail_nil d) hp hbound
  rw [load_eq]
  constructor
  · rintro ⟨links', q', hleads', hbreaks⟩
    have hnone : ∀ l ∈ ([] : List Link), l.path.isAbsolute := List.forall_mem_nil _
    obtain ⟨e, he⟩ := exists_error_of_leads hleads' hp hnone hbreaks (chainBound d)
    rw [List.map_nil] at he hends
    rw [he] at hends ⊢
    refine ⟨links, q, hleads, ?_⟩
    cases hends with
    | cycle hrevisits => exact Or.inl ⟨hrevisits, rfl⟩
    | broken hbroken => exact Or.inr ⟨e, hbroken, rfl⟩
  · intro hwhole
    rw [List.map_nil] at hends
    generalize loadMembers d (chainBound d) [] p = result at hends
    cases hends with
    | cycle hrevisits => exact absurd ⟨links, q, hleads, Or.inl hrevisits⟩ hwhole
    | broken hbroken => exact absurd ⟨links, q, hleads, Or.inr ⟨_, hbroken⟩⟩ hwhole
    | whole hread hextended hlayered =>
      exact ⟨links, q, _, _, hleads, hread, hextended, hlayered, rfl⟩

/-! ### Chains on small disks -/

def placed (path : String) (node : Node) : Location × Node := ((Path.ofString path).named, node)

def textAt (path text : String) : Location × Node := placed path (.file (Text.encode text))

/-- A project that extends a file in another directory. -/
def layeredDisk : Disk where
  nodes := [placed "/base" .directory,
    textAt "/base/main.json"
      "\x7b\"compilerOptions\":\x7b\"declarationDir\":\"./out\",\"strict\":false\x7d\x7d",
    placed "/p" .directory,
    textAt "/p/a.json"
      "\x7b\"extends\":\"../base/main\",\"compilerOptions\":\x7b\"strict\":true\x7d\x7d"]
  current := []

/-- The project counts over the file it extends. The output directory is meant from that file. -/
theorem load_of_isAbsolute_layered :
    (Path.ofString "/p/a.json").isAbsolute ∧ ¬ Breaks layeredDisk (.ofString "/p/a.json") ∧
      ∃ object, Members.get? "strict" object = some (.bool true) ∧
        Members.get? "declarationDir" object = some (.string "/base/out") ∧
        ProjectConfig.load layeredDisk (.ofString "/p/a.json") =
          built (.ofString "/p/a.json") object := by
  have hp : (Path.ofString "/p/a.json").isAbsolute := by decide
  have hproject : readConfig layeredDisk (.ofString "/p/a.json") =
      .ok ⟨some "../base/main", [("strict", .bool true)]⟩ := rfl
  have hnext : extendedPath layeredDisk (directoryOf (.ofString "/p/a.json")) "../base/main" =
      .ofString "/p/../base/main.json" := by decide
  have hbase : readConfig layeredDisk (.ofString "/p/../base/main.json") =
      .ok ⟨none, [("declarationDir", .string "./out"), ("strict", .bool false)]⟩ := rfl
  -- The chain ends at the second file, so these are all the files that are reached.
  have hleads : ∀ links q, Leads layeredDisk (.ofString "/p/a.json") links q →
      links = [] ∧ q = .ofString "/p/a.json" ∨
        links = [⟨.ofString "/p/a.json", ⟨some "../base/main", [("strict", .bool true)]⟩⟩] ∧
          q = .ofString "/p/../base/main.json" := by
    intro links q h
    cases h with
    | here => exact Or.inl ⟨rfl, rfl⟩
    | extend hread hextended hrest =>
      obtain rfl := Except.ok.inj (hproject.symm.trans hread)
      obtain rfl := Option.some.inj hextended
      rw [hnext] at hrest
      cases hrest with
      | here => exact Or.inr ⟨rfl, rfl⟩
      | extend hread' hextended' _ =>
        obtain rfl := Except.ok.inj (hbase.symm.trans hread')
        exact absurd hextended' (by simp)
  -- Neither file is missing or is met a second time.
  have hwhole : ¬ Breaks layeredDisk (.ofString "/p/a.json") := by
    rintro ⟨links, q, h, hbreaks⟩
    rcases hleads links q h with ⟨rfl, rfl⟩ | ⟨rfl, rfl⟩
    · rcases hbreaks with ⟨l, hl, -⟩ | ⟨e, he⟩
      · exact absurd hl List.not_mem_nil
      · rw [hproject] at he
        exact absurd he (by simp)
    · rcases hbreaks with ⟨l, hl, hlocation, -⟩ | ⟨e, he⟩
      · obtain rfl := List.mem_singleton.1 hl
        exact absurd hlocation (by decide)
      · rw [hbase] at he
        exact absurd he (by simp)
  obtain ⟨links, q, file, object, h, hread, hextended, hlayered, hload⟩ :=
    (load_of_isAbsolute hp layeredDisk).2 hwhole
  rcases hleads links q h with ⟨rfl, rfl⟩ | ⟨rfl, rfl⟩
  · obtain rfl := Except.ok.inj (hproject.symm.trans hread)
    exact absurd hextended (by simp)
  · obtain rfl := Except.ok.inj (hbase.symm.trans hread)
    have hout : ((directoryOf (.ofString "/p/../base/main.json")).join
        (.ofString "./out")).normalize.display = "/base/out" := by decide +kernel
    refine ⟨hp, hwhole, object, ?_, ?_, hload⟩
    · rw [hlayered.get?]
      rfl
    · rw [hlayered.get?]
      exact congrArg (fun s => some (Json.string s)) hout

/-- A file that extends itself, above the root. -/
def climbingDisk : Disk where
  nodes := [textAt "/a.json" "\x7b\"extends\":\"/../a.json\"\x7d"]
  current := []

/-- A file that is read twice, and extends another package each time. -/
def returningDisk : Disk where
  nodes := [placed "/q" .directory, placed "/q/node_modules" .directory,
    textAt "/q/node_modules/p.json" "\x7b\"extends\":\"/y/../x/a.json\"\x7d",
    placed "/x" .directory, textAt "/x/a.json" "\x7b\"extends\":\"p\"\x7d",
    placed "/y" .directory, placed "/y/node_modules" .directory,
    textAt "/y/node_modules/p.json" "\x7b\x7d"]
  current := []

/-- **Above the root the reader goes by parity.** On the first disk no path of the chain is one that
does not climb, and all are read; yet there are no options. On the second the chain comes back to a
file, under a path that does not climb; yet there are options. -/
theorem load_climbing :
    ((∀ links q, Leads climbingDisk (.ofString "/../a.json") links q →
        0 < q.displacement.up ∧ ∃ file, readConfig climbingDisk q = .ok file) ∧
      ∃ e, ProjectConfig.load climbingDisk (.ofString "/../a.json") = .error e) ∧
    (∃ links q, Leads returningDisk (.ofString "/../q/../x/a.json") links q ∧
      q.displacement.up = 0 ∧
      ∃ l ∈ links, returningDisk.location l.path = returningDisk.location q) ∧
      ∃ config, ProjectConfig.load returningDisk (.ofString "/../q/../x/a.json") = .ok config := by
  have hcircle : ProjectConfig.load climbingDisk (.ofString "/../a.json") =
      .error (.configCycle (.ofString "/../a.json")) := rfl
  have hloaded : ProjectConfig.load returningDisk (.ofString "/../q/../x/a.json") =
      .ok ⟨some (.ofString "/../q/../x/a.json"), {}⟩ := rfl
  refine ⟨⟨?_, _, hcircle⟩, ?_, _, hloaded⟩
  · have hread : readConfig climbingDisk (.ofString "/../a.json") =
        .ok ⟨some "/../a.json", []⟩ := rfl
    have hnext : extendedPath climbingDisk (directoryOf (.ofString "/../a.json")) "/../a.json" =
        .ofString "/../a.json" := by decide
    -- the chain stays at the path that it begins with
    have hstays : ∀ p links q, Leads climbingDisk p links q → p = .ofString "/../a.json" →
        q = .ofString "/../a.json" := by
      intro p links q h
      induction h with
      | here => exact id
      | extend hfile hextended _ ih =>
        rintro rfl
        obtain rfl := Except.ok.inj (hread.symm.trans hfile)
        obtain rfl := Option.some.inj hextended
        exact ih hnext
    intro links q h
    obtain rfl := hstays _ links q h rfl
    exact ⟨by decide, _, hread⟩
  · have hread : readConfig returningDisk (.ofString "/../q/../x/a.json") =
        .ok ⟨some "p", []⟩ := rfl
    have hnext : extendedPath returningDisk (directoryOf (.ofString "/../q/../x/a.json")) "p" =
        .ofString "/../q/node_modules/p.json" := by decide
    have hback : readConfig returningDisk (.ofString "/../q/node_modules/p.json") =
        .ok ⟨some "/y/../x/a.json", []⟩ := rfl
    have hreturn : extendedPath returningDisk (directoryOf (.ofString "/../q/node_modules/p.json"))
        "/y/../x/a.json" = .ofString "/y/../x/a.json" := by decide
    have hleads : Leads returningDisk (.ofString "/../q/../x/a.json")
        [⟨.ofString "/../q/../x/a.json", ⟨some "p", []⟩⟩,
          ⟨.ofString "/../q/node_modules/p.json", ⟨some "/y/../x/a.json", []⟩⟩]
        (.ofString "/y/../x/a.json") := by
      apply Leads.extend hread rfl
      rw [hnext]
      apply Leads.extend hback rfl
      rw [hreturn]
      exact Leads.here _
    exact ⟨_, _, hleads, by decide, _, List.mem_cons_self, by decide⟩

end SvelteTypings.Cli
