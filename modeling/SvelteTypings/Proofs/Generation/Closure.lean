import SvelteTypings.Proofs.FileSystem.Memory
import SvelteTypings.Proofs.Generation.Compilation

/-!
# The table that is returned

With the library's own compiler and files in memory, a run that goes well returns a settled table
(`settled_of_generate`). So the keys are the least set that holds the listed components and is
closed under imports that mean a component (`mem_keys_generate_iff`), and every entry has the
declarations of its own text (`output_of_generate`).
-/

namespace SvelteTypings.Generation

open SvelteTypings.Path (IsRooted IsCanonical)

variable {c : Config} {fs : FileSystem} {transformer : Transformer} {cwd p k : Path} {e : Entry}
  {t : Table} {schedule : Schedule} {report : Report}

/-! ## Runs -/

theorem Table.mem_keys_of_mem_discoveredKeys (h : k ∈ t.discoveredKeys) : k ∈ t.keys := by
  obtain ⟨x, hx, rfl⟩ := List.mem_map.1 h
  exact List.mem_map_of_mem (List.mem_filter.1 hx).1

/-- Further passes over a settled table leave it settled. -/
theorem settled_of_runPasses {n : Nat} (hclear : c.RootClear fs) (ht : c.Settled fs transformer t)
    (hworklist : ∀ k ∈ schedule.worklist, k ∈ t.keys)
    (h : ((c.setting transformer Emission.compile fs cwd).runPasses n schedule t).result =
      .ok report) :
    c.Settled fs transformer
      ((c.setting transformer Emission.compile fs cwd).runPasses n schedule t).table := by
  induction n generalizing schedule t with
  | zero => exact ht
  | succ n ih =>
    have hproceeds :=
      proceeds_runPasses (c.setting transformer Emission.compile fs cwd) n schedule t
    generalize (c.setting transformer Emission.compile fs cwd).runPasses (n + 1) schedule t = run
      at hproceeds h ⊢
    cases hproceeds with
    | finish hstage => exact ht
    | fail hrunning e log hcompile => exact absurd h (by simp)
    | pass hrunning output log hcompile =>
      have hroots : ∀ k ∈ schedule.worklist, c.Loadable fs transformer t k := fun k hk =>
        ht.view.loadable (hworklist k hk) (ht.reached k (hworklist k hk))
      obtain ⟨files, hpassed⟩ := passed_of_compile hclear ht.view hroots hcompile
      exact ih (hpassed.settled ht) (fun k hk => Table.mem_keys_of_mem_discoveredKeys hk) h

/-- Without listed components nothing is reached. -/
theorem not_reaches_of_keys_eq_nil (ht : c.View fs transformer t) (hempty : t.keys = []) (p : Path) :
    ¬ c.Reaches fs transformer p := by
  intro hp
  induction hp with
  | listed hlists => exact absurd (ht.listed _ hlists) (by simp [hempty])
  | imported _ _ ih => exact ih

/-- What a run starts with: entries of listed components, none of which has an output yet. -/
structure Config.Fresh (c : Config) (fs : FileSystem) (transformer : Transformer) (t : Table) :
    Prop where
  view : c.View fs transformer t
  lists : ∀ k ∈ t.keys, c.Lists fs k
  unwritten : ∀ k e, t.Holds k e → e.output = none
  rootClear : t.keys ≠ [] → c.RootClear fs

theorem Config.Fresh.loadable (ht : c.Fresh fs transformer t) (hk : k ∈ t.keys) :
    c.Loadable fs transformer t k :=
  ht.view.loadable hk (.listed (ht.lists k hk))

/-- The first pass over a table of listed components settles it. -/
theorem Config.Fresh.settled {output : EmitOutput} (ht : c.Fresh fs transformer t)
    (hne : t.keys ≠ [])
    (h : ((c.setting transformer Emission.compile fs cwd).compile t.keys t).result = .ok output) :
    c.Settled fs transformer
      ((c.setting transformer Emission.compile fs cwd).compile t.keys t).state := by
  obtain ⟨files, hpassed⟩ := passed_of_compile (ht.rootClear hne) ht.view (fun k => ht.loadable) h
  exact hpassed.settled_first ht.view ht.unwritten

/-- **A run with a pass to spare settles a table of listed components.** -/
theorem settled_of_run {maxPasses : Nat} (ht : c.Fresh fs transformer t) (hmax : 1 ≤ maxPasses)
    (h : ((c.setting transformer Emission.compile fs cwd).run maxPasses t).result = .ok report) :
    c.Settled fs transformer
      ((c.setting transformer Emission.compile fs cwd).run maxPasses t).table := by
  obtain ⟨n, rfl⟩ := Nat.exists_eq_add_of_le' hmax
  have hopens := opens_run (c.setting transformer Emission.compile fs cwd) n t
  generalize (c.setting transformer Emission.compile fs cwd).run (n + 1) t = run at hopens h ⊢
  cases hopens with
  | idle hempty log =>
    -- nothing is listed, so nothing is reached
    have hnone : ∀ k, k ∉ t.keys := by simp [hempty]
    exact ⟨ht.view, fun k e he => absurd he.mem_keys (hnone k), fun k hk => absurd hk (hnone k),
      fun p hp => absurd hp (not_reaches_of_keys_eq_nil ht.view hempty p)⟩
  | fail hne e log hcompile => exact absurd h (by simp)
  | pass hne output schedule log hcompile hdue hworklist =>
    exact settled_of_runPasses (ht.rootClear hne) (ht.settled hne hcompile)
      (fun k hk => Table.mem_keys_of_mem_discoveredKeys (hworklist ▸ hk)) h

/-! ## Listed components -/

theorem Config.Listed.view (h : c.Listed fs transformer c.components t)
    (habsolute : ∀ p ∈ c.components, p.isAbsolute) : c.View fs transformer t where
  admitted := h.admitted fun _ => id
  rooted k hk := by
    obtain ⟨e, he⟩ := Table.mem_keys_iff.1 hk
    obtain ⟨rfl, p, hp, henters⟩ := h.entry k e he
    rw [henters.component]
    exact (Path.isRooted_normalize (habsolute p hp)).appendSuffix Path.isSuffix_intermediate
  listed := by
    rintro k ⟨p, hp, htakes, rfl⟩
    exact h.taken p hp htakes

theorem Config.Listed.lists (h : c.Listed fs transformer c.components t) (hk : k ∈ t.keys) :
    c.Lists fs k := by
  obtain ⟨e, he⟩ := Table.mem_keys_iff.1 hk
  obtain ⟨rfl, p, hp, henters⟩ := h.entry k e he
  exact ⟨p, hp, henters.takes, by rw [henters.component]⟩

theorem Config.Listed.output_eq_none {listed : List Path} (h : c.Listed fs transformer listed t)
    (he : t.Holds k e) : e.output = none := by
  obtain ⟨-, p, -, henters⟩ := h.entry k e he
  exact henters.output

/-! ## Files in memory -/

variable {m : MemoryFiles}

/-- A path that a file lies strictly below is no file. -/
theorem isFile_eq_false_of_below {q : Path} {text : String} (h : m.read q = .ok text)
    (hbelow : q.startsWith p) (hne : ¬ q.same p) : m.fileSystem.isFile p = false := by
  show (m.present p && !m.isDirectory p) = false
  rw [MemoryFiles.isDirectory_of_below h hbelow hne, Bool.not_true, Bool.and_false]

/-- With a listed component that is read from memory, the source root is no component, unless it is
the listed one itself. -/
theorem rootClear_of_memory {text : String} (hp : p ∈ c.components)
    (htakes : c.Takes m.fileSystem p) (hread : m.read p.normalize = .ok text) :
    c.RootClear m.fileSystem := by
  intro component hrooted hdiscovers
  rcases Path.startsWith_appendSuffix Path.isSuffix_intermediate hrooted hdiscovers.underSource with
    hunder | ⟨hroot, hspelled⟩
  · exact Or.inl hunder
  · have hbelow : p.normalize.startsWith component := by
      have hunder := htakes.underSource
      rw [Config.isUnderSource, Path.startsWith, ← (Path.same_iff _ _).1 hroot] at hunder
      exact hunder
    -- the listed component is this one, or it lies below it and makes it a directory
    by_cases hsame : p.normalize.same component
    · have heq := hspelled _ (Path.isCanonical_normalize p) hsame
      exact Or.inr ⟨p, hp, htakes, by rw [heq]⟩
    · have hfile := hdiscovers.isFile
      rw [isFile_eq_false_of_below hread hbelow hsame] at hfile
      exact absurd hfile Bool.false_ne_true

theorem Config.Listed.rootClear (h : c.Listed m.fileSystem transformer c.components t)
    (hne : t.keys ≠ []) : c.RootClear m.fileSystem := by
  obtain ⟨k, hk⟩ := List.exists_mem_of_ne_nil _ hne
  obtain ⟨e, he⟩ := Table.mem_keys_iff.1 hk
  obtain ⟨-, p, hp, henters⟩ := h.entry k e he
  obtain ⟨text, transformed, hread, -, -⟩ := synthesize_eq_ok_iff.1 henters.source
  rw [henters.component] at hread
  exact rootClear_of_memory hp henters.takes hread

theorem fresh_initialTable (habsolute : ∀ p ∈ c.components, p.isAbsolute)
    (h : (initialTable c transformer m.fileSystem cwd c.components .empty).1 = .ok t) :
    c.Fresh m.fileSystem transformer t := by
  have hlisted : c.Listed m.fileSystem transformer c.components t :=
    listed_initialTable listed_empty h
  exact ⟨hlisted.view habsolute, fun k => hlisted.lists, fun k e => hlisted.output_eq_none,
    hlisted.rootClear⟩

/-- **A run over files in memory returns a settled table.** -/
theorem settled_of_generate (habsolute : ∀ p ∈ c.components, p.isAbsolute) (hmax : 1 ≤ c.maxPasses)
    (h : (generate c transformer Emission.compile m.fileSystem cwd).result = .ok t) :
    c.Settled m.fileSystem transformer t := by
  obtain ⟨initial, hinitial, ⟨report, hreport⟩, rfl⟩ := exists_initial_of_generate h
  exact settled_of_run (fresh_initialTable habsolute hinitial) hmax hreport

/-! ## Keys -/

/-- **The keys are a least closure.** A key is that of a listed component that gets an entry, or of
a real file that is a component and that an import means, in a file that the listed components lead
to. -/
theorem mem_keys_generate_iff (c : Config) (transformer : Transformer) (m : MemoryFiles) (cwd : Path)
    (t : Table) (habsolute : ∀ p ∈ c.components, p.isAbsolute) (hmax : 1 ≤ c.maxPasses)
    (h : (generate c transformer Emission.compile m.fileSystem cwd).result = .ok t) (key : Path) :
    key ∈ t.keys ↔
      c.Lists m.fileSystem key ∨
        ∃ component, key = Table.keyFor component ∧ c.Discovers m.fileSystem component ∧
          ∃ file, c.Reaches m.fileSystem transformer file ∧
            c.Imports m.fileSystem transformer file key := by
  have hsettled := settled_of_generate habsolute hmax h
  refine ⟨?_, ?_⟩
  · intro hk
    rcases hsettled.view.shows hk with hlists | ⟨component, hkey, hdiscovers⟩
    · exact Or.inl hlists
    · cases hsettled.reached key hk with
      | listed hlists => exact Or.inl hlists
      | imported hfile himports =>
        exact Or.inr ⟨component, hkey, hdiscovers, _, hfile, himports⟩
  · rintro (hlists | ⟨component, hkey, hdiscovers, file, hfile, himports⟩)
    · exact hsettled.view.listed key hlists
    · exact hsettled.complete key (.imported hfile himports) (Or.inr ⟨component, hkey, hdiscovers⟩)

/-- Three components in a row of imports, of which the first is listed and the last lies in a
package. -/
def chainFiles : MemoryFiles :=
  .ofList [(.ofString "/s/A.svelte", "import './B.svelte'"),
    (.ofString "/s/B.svelte", "import './node_modules/C.svelte'"),
    (.ofString "/s/node_modules/C.svelte", "")]

def chainConfig : Config where
  components := [.ofString "/s/A.svelte"]
  source := .ofString "/s"
  output := .ofString "/o"
  maxPasses := 1
  isComponent := Config.endsInOneOf [".svelte"]

def chain : Generated Table :=
  generate chainConfig (fun text _ => .ok text) Emission.compile chainFiles.fileSystem .root

def chainKeys : List Path :=
  ["/s/A.svelte.tsx", "/s/B.svelte.tsx", "/s/node_modules/C.svelte.tsx"].map Path.ofString

theorem exists_chain : ∃ t, chain.result = .ok t ∧ t.keys = chainKeys := by
  have hkeys : chain.result.toOption.map Table.keys = some chainKeys := by decide +kernel
  obtain ⟨t, ht, hkeys⟩ := Option.map_eq_some_iff.1 hkeys
  exact ⟨t, eq_ok_of_toOption ht, hkeys⟩

/-- The last component of the row is a key because something that is reached imports it. -/
theorem mem_keys_generate_iff_chain :
    ∃ t, chain.result = .ok t ∧ t.keys = chainKeys ∧ ∀ key, key ∈ chainKeys ↔
      chainConfig.Lists chainFiles.fileSystem key ∨
        ∃ component, key = Table.keyFor component ∧
          chainConfig.Discovers chainFiles.fileSystem component ∧
            ∃ file, chainConfig.Reaches chainFiles.fileSystem (fun text _ => .ok text) file ∧
              chainConfig.Imports chainFiles.fileSystem (fun text _ => .ok text) file key := by
  obtain ⟨t, ht, hkeys⟩ := exists_chain
  refine ⟨t, ht, hkeys, fun key => ?_⟩
  rw [← hkeys]
  exact mem_keys_generate_iff chainConfig _ chainFiles .root t (by decide) (by decide) ht key

/-! ## Outputs -/

/-- **Every entry has the declarations of its own text**, apart from those in a package, which have
none. -/
theorem output_of_generate (c : Config) (transformer : Transformer) (m : MemoryFiles) (cwd : Path)
    (t : Table) (habsolute : ∀ p ∈ c.components, p.isAbsolute) (hmax : 1 ≤ c.maxPasses)
    (h : (generate c transformer Emission.compile m.fileSystem cwd).result = .ok t) (key : Path)
    (e : Entry) (he : t.Holds key e) :
    e.output =
      if key.components.contains Emission.packageDirectory then none
      else some (Script.declarations c.options.declarationOnly e.source) :=
  (settled_of_generate habsolute hmax h).written key e he

/-- In the row, the second component has its declarations and the one in the package has none. -/
theorem output_of_generate_chain :
    ∃ t b p, chain.result = .ok t ∧ t.Holds (.ofString "/s/B.svelte.tsx") b ∧
      t.Holds (.ofString "/s/node_modules/C.svelte.tsx") p ∧
        b.output = some (Script.declarations chainConfig.options.declarationOnly b.source) ∧
          p.output = none := by
  obtain ⟨t, ht, hkeys⟩ := exists_chain
  obtain ⟨b, hb⟩ := Table.mem_keys_iff.1 (show .ofString "/s/B.svelte.tsx" ∈ t.keys by
    rw [hkeys]
    decide)
  obtain ⟨p, hp⟩ := Table.mem_keys_iff.1 (show .ofString "/s/node_modules/C.svelte.tsx" ∈ t.keys by
    rw [hkeys]
    decide)
  have houtput := output_of_generate chainConfig _ chainFiles .root t (by decide) (by decide) ht
  refine ⟨t, b, p, ht, hb, hp, (houtput _ b hb).trans (if_neg ?_), (houtput _ p hp).trans (if_pos ?_)⟩
  · decide
  · decide

end SvelteTypings.Generation
