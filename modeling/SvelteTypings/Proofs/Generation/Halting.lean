import SvelteTypings.Proofs.Compiler.Loads
import SvelteTypings.Proofs.Generation.RootOrder

/-!
# Loading through the overlay comes to an end

A question to the overlay can make a new file exist, and the files that are queued grow with every
file that is loaded. Still there are only so many files: behind each one that can ever be read there
is an entry that the table had at the beginning, or a real file, and a real file is behind four at
most (`filesFrom`). So whatever the imports are, a program is loaded without regard to any bound
(`build_ends`).
-/

namespace SvelteTypings.Generation

open SvelteTypings.Path (IsCanonical)

variable {c : Config} {transformer : Transformer} {m : MemoryFiles} {cwd p : Path} {start t : Table}
  {asked queue : List Path} {program : Program} {text : String}

/-- Behind a file that can be read, after whatever questions, there is an entry of the first table
or a real file. -/
theorem mem_filesFrom_of_text
    (h : Table.AfterAsking (discoverComponent c m.fileSystem transformer) start asked t)
    (hp : IsCanonical p) (htext : overlayText? m.fileSystem t p = .ok (some text)) :
    p ∈ start.keys.map Path.normalize ++ m.files.keys.flatMap filesFrom := by
  have hkeyed := keyed_discoverComponent c m.fileSystem transformer
  have hshown : start.contains p ∨ (overlayExists (discoverComponent c m.fileSystem transformer)
      m.fileSystem start p).1 = .ok true → p ∈ _ := mem_filesFrom hp
  rw [overlayText?] at htext
  cases hget : t.get? p with
  | some e =>
    rcases (h.get?_eq_some_iff hp).1 hget with hstart | ⟨-, hnew, x, hfound, -⟩
    · exact hshown (Or.inl (Table.contains_iff_exists_get?.2 ⟨e, hstart⟩))
    · refine hshown (Or.inr ?_)
      rw [overlayExists_fst hkeyed, if_neg hnew, hfound]
      rfl
  | none =>
    -- the file is real; a question for it might have failed
    rw [hget] at htext
    obtain ⟨q, hq, hsame⟩ :=
      MemoryFiles.exists_key_of_isFile (FileSystem.isFile_of_textOf? htext)
    refine List.mem_append_right _ (List.mem_flatMap.2 ⟨q, hq, ?_⟩)
    exact hp.eq_normalize hsame ▸ List.mem_cons_self

/-- The overlay shows a file, and it has been asked for. -/
structure Config.Found (c : Config) (transformer : Transformer) (m : MemoryFiles) (start : Table)
    (asked : List Path) (p : Path) : Prop where
  asked : p ∈ asked
  isFile : (overlayAnswers (discoverComponent c m.fileSystem transformer) m.fileSystem start).isFile
    p = .ok true

/-- Loading is under way. The table is what questions for some paths have made of the first one;
every file of the program is among the few that there can be; and what such a file imports is in the
program, or it is queued and there to be read. -/
structure Config.Underway (c : Config) (transformer : Transformer) (m : MemoryFiles)
    (start : Table) (asked queue : List Path) (program : Program) (t : Table) : Prop where
  after : Table.AfterAsking (discoverComponent c m.fileSystem transformer) start asked t
  queued : ∀ p ∈ queue, IsCanonical p
  loaded : ∀ p ∈ program.files.keys, IsCanonical p
  few : program.files.keys ⊆ start.keys.map Path.normalize ++ m.files.keys.flatMap filesFrom
  imports : ∀ p file, (p, file) ∈ program.files.toList → ∀ q ∈ file.imports,
    q ∈ program.files.keys ∨ q ∈ queue ∧ c.Found transformer m start asked q

/-- What is left of the queue when its first file is passed over. -/
theorem Config.Underway.skip {program' : Program}
    (h : c.Underway transformer m start asked (p :: queue) program t)
    (hfiles : program'.files = program.files)
    (hp : p ∈ program.files.keys ∨ ¬ c.Found transformer m start asked p) :
    c.Underway transformer m start asked queue program' t where
  after := h.after
  queued q hq := h.queued q (List.mem_cons_of_mem p hq)
  loaded := hfiles ▸ h.loaded
  few := hfiles ▸ h.few
  imports p' file hfile q hq := by
    rw [hfiles] at hfile ⊢
    rcases h.imports p' file hfile q hq with hkey | ⟨hqueue, hfound⟩
    · exact Or.inl hkey
    · rcases List.mem_cons.1 hqueue with rfl | hqueue
      · exact Or.inl (hp.resolve_right fun hnot => hnot hfound)
      · exact Or.inr ⟨hqueue, hfound⟩

/-- A file that has been found can be read. -/
theorem Config.Underway.text_ne_none
    (h : c.Underway transformer m start asked (p :: queue) program t)
    (hfound : c.Found transformer m start asked p) : overlayText? m.fileSystem t p ≠ .ok none := by
  rw [h.after.overlayText?_eq (keyed_discoverComponent c m.fileSystem transformer)
    (h.queued p List.mem_cons_self) (Or.inr hfound.asked)]
  exact overlayText?_ne_none hfound.isFile

/-- No step of loading leaves the few files that there can be, or loses an import. -/
theorem Config.underway_invariant (c : Config) (transformer : Transformer) (m : MemoryFiles)
    (cwd : Path) (start : Table) :
    Program.Invariant (c.host m.fileSystem transformer cwd) fun queue program t =>
      ∃ asked, c.Underway transformer m start asked queue program t where
  drop p queue program t := by
    rintro ⟨asked, h⟩ hcontains
    have hp := h.queued p List.mem_cons_self
    exact ⟨asked, h.skip rfl (Or.inl ((Program.contains_iff_mem_keys h.loaded hp).1 hcontains))⟩
  missing p queue program t := by
    rintro ⟨asked, h⟩ - htext
    exact ⟨asked, h.skip rfl (Or.inr fun hfound => h.text_ne_none hfound htext)⟩
  load p text imports queue program program' t t' := by
    rintro ⟨asked, h⟩ hnew htext hresolved
    obtain ⟨rest, hreading, -, hafter⟩ :=
      (overlay_steady c transformer m cwd start).returns_resolveAll h.after hresolved
    have hfiles : program'.files = program.files := Program.files_of_resolveAll hresolved
    have hp := h.queued p List.mem_cons_self
    have hnew' : ¬ program'.files.contains p := hfiles ▸ hnew
    have himports := fun q hq => Answers.found_of_mem_imports (q := q) hreading hq
    have hkeys : ∀ k, k ∈ (program'.addFile p text imports).files.keys ↔
        k = p ∨ k ∈ program'.files.keys := fun k => PathMap.mem_keys_insert_of_not_contains hnew'
    have hcovered : ∀ q, q ∈ ((p :: queue) ++ program'.files.keys) ++ imports →
        q ∈ Program.enqueue queue imports (program'.addFile p text imports) ++
          (program'.addFile p text imports).files.keys := fun q =>
      Program.covered_addFile (hfiles ▸ h.loaded) hp hnew' fun q hq => (himports q hq).1
    refine ⟨_, hafter, ?_, ?_, ?_, ?_⟩
    · intro q hq
      rcases List.mem_append.1 hq with hq | hq
      · exact h.queued q (List.mem_cons_of_mem p hq)
      · exact (himports q (List.mem_filter.1 hq).1).1
    · intro q hq
      rcases (hkeys q).1 hq with rfl | hq
      · exact hp
      · exact h.loaded q (hfiles ▸ hq)
    · intro q hq
      rcases (hkeys q).1 hq with rfl | hq
      · exact mem_filesFrom_of_text h.after hp htext
      · exact h.few (hfiles ▸ hq)
    · -- an import of a file that was loaded before stays where it was; one of the new file has been
      -- found on the way
      have hplaced : ∀ asked' q, q ∈ ((p :: queue) ++ program'.files.keys) ++ imports →
          (q ∈ program'.files.keys ∨ c.Found transformer m start asked' q) →
            q ∈ (program'.addFile p text imports).files.keys ∨
              q ∈ Program.enqueue queue imports (program'.addFile p text imports) ∧
                c.Found transformer m start asked' q := by
        intro asked' q hq hfound
        rcases hfound with hkey | hfound
        · exact Or.inl ((hkeys q).2 (Or.inr hkey))
        · rcases List.mem_append.1 (hcovered q hq) with hqueue | hkey
          · exact Or.inr ⟨hqueue, hfound⟩
          · exact Or.inl hkey
      intro p' file hfile q hq
      rcases (PathMap.mem_insert_of_not_contains hnew').1 hfile with heq | hfile
      · obtain ⟨rfl, rfl⟩ := Prod.mk.inj heq
        obtain ⟨-, hanswer, hasked⟩ := himports q hq
        exact hplaced _ q (List.mem_append_right _ hq)
          (Or.inr ⟨List.mem_append_left _ hasked, hanswer⟩)
      · rcases h.imports p' file (hfiles ▸ hfile) q hq with hkey | ⟨hqueue, hfound⟩
        · exact Or.inl ((hkeys q).2 (Or.inr (hfiles ▸ hkey)))
        · refine hplaced _ q (List.mem_append_left _ (List.mem_append_left _ hqueue)) (Or.inr ?_)
          exact ⟨List.mem_append_right _ hfound.asked, hfound.isFile⟩

/-- As long as a file is left to load, the program holds fewer files than there can be. -/
theorem Config.Underway.size_lt (h : c.Underway transformer m start asked (p :: queue) program t)
    (hnew : ¬ program.files.contains p) (htext : overlayText? m.fileSystem t p = .ok (some text)) :
    program.files.size < 4 * m.files.size + start.size := by
  have hp := h.queued p List.mem_cons_self
  have hnot : p ∉ program.files.keys := fun hmem => hnew (PathMap.contains_of_mem_keys hmem)
  have hnodup : (p :: program.files.keys).Nodup :=
    List.nodup_cons.2 ⟨hnot, PathMap.nodup_keys program.files⟩
  have hsub : p :: program.files.keys ⊆
      start.keys.map Path.normalize ++ m.files.keys.flatMap filesFrom :=
    List.cons_subset.2 ⟨mem_filesFrom_of_text h.after hp htext, h.few⟩
  have hlength := hnodup.length_le_of_subset hsub
  have hsize : program.files.keys.length = program.files.size := List.length_map _
  rw [length_filesFrom, List.length_cons, hsize] at hlength
  omega

/-- **Building a program comes to an end**, whatever the roots and the table are and whatever is
discovered on the way: the build is a run of the loop that nothing bounds. Each file of the program
is loaded once, no two are the same file, and what they import is in the program. -/
theorem build_ends (c : Config) (transformer : Transformer) (m : MemoryFiles) (cwd : Path)
    (start : Table) (roots : List Path) :
    ∃ loaded, Program.Loads (c.host m.fileSystem transformer cwd)
        (roots.map fun root => (cwd.join root).normalize) .empty start loaded
        ((Program.build roots).run (c.host m.fileSystem transformer cwd) start).result
        ((Program.build roots).run (c.host m.fileSystem transformer cwd) start).state ∧
      ∀ program,
        ((Program.build roots).run (c.host m.fileSystem transformer cwd) start).result =
            .ok program →
          loaded.Perm program.files.keys ∧
            program.files.keys.Pairwise (fun p q => ¬ p.same q) ∧
              ∀ file ∈ program.files.values, ∀ q ∈ file.imports, program.files.contains q := by
  have hinvariant := c.underway_invariant transformer m cwd start
  have hinitial : c.Underway transformer m start []
      (roots.map fun root => (cwd.join root).normalize) .empty start :=
    { after := Table.afterAsking_nil _ start
      queued := by
        intro p hp
        obtain ⟨root, -, rfl⟩ := List.mem_map.1 hp
        exact Path.isCanonical_normalize _
      loaded := fun p hp => absurd hp List.not_mem_nil
      few := List.nil_subset _
      imports := fun p file hfile => absurd hfile List.not_mem_nil }
  -- The build is the loop with a bound that is never reached.
  have hbuild : (Program.build roots).run (c.host m.fileSystem transformer cwd) start =
      (Program.loadAll (4 * m.files.size + start.size)
        (roots.map fun root => (cwd.join root).normalize) .empty).run
        (c.host m.fileSystem transformer cwd) start := rfl
  rw [hbuild]
  have hbound : 4 * m.files.size + start.size ≤
      4 * m.files.size + start.size + Program.empty.files.size := Nat.le_add_right _ _
  obtain ⟨loaded, hloads⟩ := hinvariant.exists_loads
    (fun p text queue program t ⟨_, h⟩ hnew htext => h.size_lt hnew htext) ⟨[], hinitial⟩ hbound
  refine ⟨loaded, hloads, fun program hresult => ?_⟩
  obtain ⟨asked, hdone⟩ := hinvariant.of_loadAll ⟨[], hinitial⟩ ⟨hresult, rfl⟩
  refine ⟨?_, ?_, ?_⟩
  · rw [hresult] at hloads
    exact hloads.perm
  · exact (PathMap.keys_ordered program.files).imp Path.not_same_of_lt
  · intro file hfile q hq
    obtain ⟨⟨p, file⟩, hmem, rfl⟩ := List.mem_map.1 hfile
    rcases hdone.imports p file hmem q hq with hkey | ⟨hqueue, -⟩
    · exact PathMap.contains_of_mem_keys hkey
    · exact absurd hqueue List.not_mem_nil

/-- Two components that import each other; only the first is listed. -/
def circularFiles : MemoryFiles :=
  .ofList [(.ofString "/A.svelte", "import './B.svelte'"),
    (.ofString "/B.svelte", "import './A.svelte'")]

def circularTable : Table :=
  Table.empty.insert { component := .ofString "/A.svelte", destination := .ofString "/o/A.d.ts"
                       source := "import './B.svelte'" }

/-- The program of the two is loaded once each, although the second is discovered on the way and
leads back to the first. -/
theorem build_ends_circular :
    ∃ program, ((Program.build circularTable.keys).run
          (importersConfig.host circularFiles.fileSystem (fun text _ => .ok text) .root)
          circularTable).result = .ok program ∧
      program.files.keys = ["/A.svelte.tsx", "/B.svelte.tsx"].map Path.ofString ∧
      ∃ loaded, Program.Loads
          (importersConfig.host circularFiles.fileSystem (fun text _ => .ok text) .root)
          (circularTable.keys.map fun root => (Path.root.join root).normalize) .empty circularTable
          loaded (.ok program)
          ((Program.build circularTable.keys).run
            (importersConfig.host circularFiles.fileSystem (fun text _ => .ok text) .root)
            circularTable).state ∧
        loaded.Perm program.files.keys ∧
          ∀ file ∈ program.files.values, ∀ q ∈ file.imports, program.files.contains q := by
  have hkeys : ((Program.build circularTable.keys).run
      (importersConfig.host circularFiles.fileSystem (fun text _ => .ok text) .root)
      circularTable).result.toOption.map (fun program => program.files.keys) =
        some (["/A.svelte.tsx", "/B.svelte.tsx"].map Path.ofString) := by decide +kernel
  obtain ⟨program, hprogram, hkeys⟩ := Option.map_eq_some_iff.1 hkeys
  have hresult := eq_ok_of_toOption hprogram
  obtain ⟨loaded, hloads, hends⟩ := build_ends importersConfig (fun text _ => .ok text)
    circularFiles .root circularTable circularTable.keys
  rw [hresult] at hloads
  obtain ⟨hperm, -, himports⟩ := hends program hresult
  exact ⟨program, hresult, hkeys, loaded, hloads, hperm, himports⟩

end SvelteTypings.Generation
