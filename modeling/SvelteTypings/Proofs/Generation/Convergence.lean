import SvelteTypings.Proofs.Generation.Closure

/-!
# Two passes are enough

Whatever a run will ever discover, its first pass discovers: the pass follows every chain of imports
to its end, also through components that exist only since it has asked for them. A second pass goes
through files that the first one has loaded already, so it finds nothing new
(`Config.Settled.gained_eq_nil`), and there is no third one. A run that is left two passes thus
reaches its fixed point.
-/

namespace SvelteTypings.Generation

variable {c : Config} {fs : FileSystem} {transformer : Transformer} {cwd : Path} {t : Table}
  {s : Setting} {roots : List Path} {output : EmitOutput} {schedule : Schedule} {report : Report}

/-! ## Passes over a settled table -/

/-- **A pass over a settled table adds nothing.** What it could add is reached by the listed
components, and a settled table has all of that. -/
theorem Config.Settled.gained_eq_nil (ht : c.Settled fs transformer t) (hclear : c.RootClear fs)
    (hroots : ∀ k ∈ roots, k ∈ t.keys)
    (h : ((c.setting transformer Emission.compile fs cwd).compile roots t).result = .ok output) :
    gained t ((c.setting transformer Emission.compile fs cwd).compile roots t).state = [] := by
  have hloadable : ∀ k ∈ roots, c.Loadable fs transformer t k := fun k hk =>
    ht.view.loadable (hroots k hk) (ht.reached k (hroots k hk))
  obtain ⟨files, hpassed⟩ := passed_of_compile hclear ht.view hloadable h
  refine List.filter_eq_nil_iff.2 fun k hk => ?_
  have hknown : k ∈ t.keys := by
    rcases hpassed.gains k hk with hk' | hfile
    · exact hk'
    · exact ht.complete k (hpassed.loadable k hfile).reached (hpassed.view.shows hk)
  rw [Table.contains_of_mem_keys hknown]
  decide

theorem keys_eq_of_gained_eq_nil {before t : Table} (h : Grown before t)
    (hgained : gained before t = []) : t.keys = before.keys := by
  have hperm := h.keys_perm
  rw [hgained, List.append_nil] at hperm
  exact PathMap.keys_eq_of_mem_iff fun k => hperm.mem_iff

/-- A table in which nothing is marked holds nothing that was discovered in the current pass. -/
theorem Table.discovered_eq_false {k : Path} {e : Entry} (h : t.discoveredKeys = [])
    (he : t.Holds k e) : e.discovered = false := by
  cases hmark : e.discovered with
  | false => rfl
  | true =>
    have hmem : k ∈ t.discoveredKeys := List.mem_map.2 ⟨(k, e), List.mem_filter.2 ⟨he, hmark⟩, rfl⟩
    rw [h] at hmem
    exact absurd hmem List.not_mem_nil

/-! ## Runs that stop -/

theorem runPasses_eq_finish {n : Nat} (h : schedule.stage ≠ .running) :
    s.runPasses n schedule t = s.finish schedule t := by
  cases n with
  | zero => rfl
  | succ n => rw [Setting.runPasses, Schedule.next?, if_neg h]

theorem Schedule.stage_complete_nil (schedule : Schedule) :
    (schedule.complete []).stage ≠ .running := by
  have hstage : (schedule.complete []).stage = .settled := rfl
  rw [hstage]
  decide

/-! ## The passes after the first -/

/-- What is left to do once the first pass has settled the table: one pass at most, and none of it
adds anything. -/
structure Setting.Closing (s : Setting) (n : Nat) (t : Table) (run : Run) (report : Report) :
    Prop where
  once : run.passes.length ≤ 1
  keys : run.table.keys = t.keys
  nothing : ∀ pass, run.passes[0]? = some pass → gained t (s.compile pass.roots t).state = []
  fixedPoint : 1 ≤ n → report.reason = .fixedPoint ∧ run.table.discoveredKeys = []

/-- **After the first pass a run is over, or it makes one more pass that finds nothing.** -/
theorem closing_of_runPasses {n : Nat} (ht : c.Settled fs transformer t) (hclear : c.RootClear fs)
    (hdue : schedule.Due n) (hworklist : schedule.worklist = t.discoveredKeys)
    (h : ((c.setting transformer Emission.compile fs cwd).runPasses n schedule t).result =
      .ok report) :
    (c.setting transformer Emission.compile fs cwd).Closing n t
      ((c.setting transformer Emission.compile fs cwd).runPasses n schedule t) report := by
  cases n with
  | zero =>
    refine ⟨Nat.zero_le 1, rfl, fun pass hpass => ?_, fun hle => absurd hle (by decide)⟩
    exact absurd hpass (by simp [Setting.runPasses, Setting.finish])
  | succ n =>
    have hproceeds :=
      proceeds_runPasses (c.setting transformer Emission.compile fs cwd) n schedule t
    generalize (c.setting transformer Emission.compile fs cwd).runPasses (n + 1) schedule t = run
      at hproceeds h ⊢
    cases hproceeds with
    | finish hstage =>
      -- with passes left, the schedule has stopped because nothing was discovered
      have hempty : schedule.worklist = [] := (hdue.settled hstage).resolve_right (Nat.succ_ne_zero n)
      have hreport : schedule.report = report := Except.ok.inj h
      refine ⟨Nat.zero_le 1, rfl, fun pass hpass => ?_, fun _ => ⟨?_, ?_⟩⟩
      · exact absurd hpass (by simp [Setting.finish])
      · rw [← hreport]
        exact (hdue.report hstage).2.2.2.1.2 hempty
      · exact hworklist.symm.trans hempty
    | fail hrunning e log hcompile => exact absurd h (by simp)
    | pass hrunning output log hcompile =>
      have hroots : ∀ k ∈ schedule.worklist, k ∈ t.keys := fun k hk =>
        Table.mem_keys_of_mem_discoveredKeys (hworklist ▸ hk)
      have hgained := ht.gained_eq_nil hclear hroots hcompile
      have hgrown := grown_compile (s := c.setting transformer Emission.compile fs cwd)
        (keyed_discoverComponent c fs transformer) schedule.worklist t
      have hdiscovered := hgrown.discoveredKeys_eq.trans hgained
      -- nothing was found, so the schedule stops after this pass
      have hstop := schedule.stage_complete_nil
      have hdue' := hdue.complete hrunning []
      rw [hdiscovered, runPasses_eq_finish hstop] at h ⊢
      have hreport : (schedule.complete []).report = report := Except.ok.inj h
      refine ⟨Nat.le_refl 1, keys_eq_of_gained_eq_nil hgrown hgained, ?_, fun _ => ⟨?_, hdiscovered⟩⟩
      · intro pass hpass
        cases hpass
        exact hgained
      · rw [← hreport]
        exact (hdue'.report hstop).2.2.2.1.2 rfl

/-! ## Whole runs -/

/-- How a run of at most `maxPasses` passes over a table converges. -/
structure Setting.Converges (s : Setting) (maxPasses : Nat) (t : Table) (run : Run)
    (report : Report) : Prop where
  /-- The compiler is called twice at most. -/
  twice : run.passes.length ≤ 2
  /-- What is a key at the end is one after the first pass. -/
  first : (s.tableAfter t (run.passes.take 1)).keys = run.table.keys
  /-- A second pass discovers nothing. -/
  second : ∀ pass, run.passes[1]? = some pass →
    gained (s.tableAfter t (run.passes.take 1)) (s.tableAfter t (run.passes.take 2)) = []
  /-- With two passes to spare the run settles, and no mark is left. -/
  fixedPoint : 2 ≤ maxPasses →
    report.reason = .fixedPoint ∧ ∀ k e, run.table.Holds k e → e.discovered = false
  /-- Passes are missing only if there is one at most. -/
  outOfPasses : report.reason ≠ .fixedPoint → maxPasses ≤ 1

/-- **A run over listed components converges in two passes.** -/
theorem converges_of_run {maxPasses : Nat} (ht : c.Fresh fs transformer t)
    (h : ((c.setting transformer Emission.compile fs cwd).run maxPasses t).result = .ok report) :
    (c.setting transformer Emission.compile fs cwd).Converges maxPasses t
      ((c.setting transformer Emission.compile fs cwd).run maxPasses t) report := by
  cases maxPasses with
  | zero =>
    refine ⟨Nat.zero_le 2, rfl, fun pass hpass => ?_, fun hle => absurd hle (by decide),
      fun _ => Nat.zero_le 1⟩
    exact absurd hpass (by simp [Setting.run, Setting.runPasses, Setting.finish])
  | succ n =>
    have hopens := opens_run (c.setting transformer Emission.compile fs cwd) n t
    generalize (c.setting transformer Emission.compile fs cwd).run (n + 1) t = run at hopens h ⊢
    cases hopens with
    | idle hempty log =>
      -- nothing is listed
      cases h
      refine ⟨Nat.zero_le 2, rfl, fun pass hpass => absurd hpass (by simp), fun _ => ⟨rfl, ?_⟩,
        fun hne => absurd rfl hne⟩
      intro k e he
      have hmem : k ∈ t.keys := he.mem_keys
      rw [hempty] at hmem
      exact absurd hmem List.not_mem_nil
    | fail hne e log hcompile => exact absurd h (by simp)
    | pass hne output schedule log hcompile hdue hworklist =>
      have hclosing := closing_of_runPasses (ht.settled hne hcompile) (ht.rootClear hne) hdue
        hworklist h
      refine ⟨Nat.succ_le_succ hclosing.once, hclosing.keys.symm, ?_, ?_, ?_⟩
      · intro pass hpass
        have hhead := hclosing.nothing pass hpass
        -- the second pass is the first of those that are left
        rw [Run.after, List.take_succ_cons, List.take_succ_cons]
        rw [Run.after, List.getElem?_cons_succ] at hpass
        generalize ((c.setting transformer Emission.compile fs cwd).runPasses n _ _).passes = rest
          at hpass ⊢
        cases rest with
        | nil => exact absurd hpass (by simp)
        | cons pass' rest =>
          cases hpass
          exact hhead
      · intro hle
        obtain ⟨hfixed, hmarks⟩ := hclosing.fixedPoint (Nat.le_of_succ_le_succ hle)
        exact ⟨hfixed, fun k e he => Table.discovered_eq_false hmarks he⟩
      · intro hne'
        refine Nat.le_of_not_lt fun hlt => ?_
        exact hne' (hclosing.fixedPoint (Nat.lt_of_succ_lt_succ hlt)).1

/-- The passes that are reported are those of the run over the listed components. -/
theorem passes_generate {compiler : Compiler} {initial : Table}
    (h : (initialTable c transformer fs cwd c.components .empty).1 = .ok initial) :
    (generate c transformer compiler fs cwd).passes =
      (c.run transformer compiler fs cwd initial).passes := by
  simp only [generate, h]
  split <;> rfl

/-- **Generation calls the compiler twice at most.** The first call discovers every component that
the run will ever discover, and with two passes to spare the run ends in its fixed point. -/
theorem generate_converges (c : Config) (transformer : Transformer) (m : MemoryFiles) (cwd : Path)
    (t : Table) (habsolute : ∀ p ∈ c.components, p.isAbsolute)
    (h : (generate c transformer Emission.compile m.fileSystem cwd).result = .ok t) :
    ∃ initial run report,
      (initialTable c transformer m.fileSystem cwd c.components .empty).1 = .ok initial ∧
        run = c.run transformer Emission.compile m.fileSystem cwd initial ∧
        run.result = .ok report ∧ run.table = t ∧
        run.passes = (generate c transformer Emission.compile m.fileSystem cwd).passes ∧
        (c.setting transformer Emission.compile m.fileSystem cwd).Converges c.maxPasses initial run
          report := by
  obtain ⟨initial, hinitial, ⟨report, hreport⟩, rfl⟩ := exists_initial_of_generate h
  refine ⟨initial, _, report, hinitial, rfl, hreport, rfl, ?_, ?_⟩
  · exact (passes_generate hinitial).symm
  · exact converges_of_run (fresh_initialTable habsolute hinitial) hreport

/-- A listed component and one that it imports. -/
def pairFiles : MemoryFiles :=
  .ofList [(.ofString "/s/A.svelte", "import './B.svelte'"), (.ofString "/s/B.svelte", "")]

def pairConfig : Config where
  components := [.ofString "/s/A.svelte"]
  source := .ofString "/s"
  output := .ofString "/o"
  isComponent := Config.endsInOneOf [".svelte"]

def pair : Generated Table :=
  generate pairConfig (fun text _ => .ok text) Emission.compile pairFiles.fileSystem .root

def pairKeys : List Path := ["/s/A.svelte.tsx", "/s/B.svelte.tsx"].map Path.ofString

theorem exists_pair : ∃ t, pair.result = .ok t ∧ t.keys = pairKeys := by
  have hkeys : pair.result.toOption.map Table.keys = some pairKeys := by decide +kernel
  obtain ⟨t, ht, hkeys⟩ := Option.map_eq_some_iff.1 hkeys
  exact ⟨t, eq_ok_of_toOption ht, hkeys⟩

/-- The imported component is discovered, and of the five passes that the run may take it takes two
at most. -/
theorem generate_converges_pair :
    ∃ t, pair.result = .ok t ∧ t.keys = pairKeys ∧ pair.passes.length ≤ 2 ∧
      ∀ k e, t.Holds k e → e.discovered = false := by
  obtain ⟨t, ht, hkeys⟩ := exists_pair
  obtain ⟨initial, run, report, -, -, -, rfl, hpasses, hconverges⟩ :=
    generate_converges pairConfig _ pairFiles .root t (by decide) ht
  have htwice : pair.passes.length ≤ 2 := by
    show (generate _ _ _ _ _).passes.length ≤ 2
    rw [← hpasses]
    exact hconverges.twice
  exact ⟨run.table, ht, hkeys, htwice, (hconverges.fixedPoint (by decide)).2⟩

end SvelteTypings.Generation
