import SvelteTypings.Proofs.Generation.Capacity
import SvelteTypings.Proofs.Generation.Closure

/-!
# When a run can fail

A run over files in memory can fail in one way only once its listed components are in the table: a
question that module resolution asks meets a component that discovery refuses. Everything else goes
through, since a file that is found can be read, the program fits what its host has announced, and
writes never fail. So the failure of a run is that of a question to which a reached file gives rise
(`refuses_of_run`). A run succeeds if all those questions are answered (`exists_report_of_run`), and
a run that has succeeded has had answers to all of them (`answered_of_generate`).
-/

namespace SvelteTypings.Generation

open SvelteTypings.Path (IsRooted)
open Resolution (candidates importBase isIndex search)

/-- Whatever is asked for a file that the listed components lead to is answered. -/
def Config.Answered (c : Config) (fs : FileSystem) (transformer : Transformer) : Prop :=
  ∀ p, c.Reaches fs transformer p → ∀ q, c.Asks fs transformer p q → c.Answers fs transformer q

/-- Something that is asked for a file that the listed components lead to is refused. -/
def Config.Refuses (c : Config) (fs : FileSystem) (transformer : Transformer) (e : Failure) : Prop :=
  ∃ p q, c.Reaches fs transformer p ∧ c.Asks fs transformer p q ∧
    discoverComponent c fs transformer q = .error e

variable {c : Config} {fs : FileSystem} {transformer : Transformer} {cwd base p q : Path}
  {m : MemoryFiles} {t t' start initial : Table} {ps roots queue : List Path} {program : Program}
  {schedule : Schedule} {e : Failure}

theorem Config.Answered.not_refuses (h : c.Answered fs transformer) : ¬ c.Refuses fs transformer e := by
  rintro ⟨p, q, hp, hq, hrefused⟩
  obtain ⟨found, hfound⟩ := h p hp q hq
  rw [hrefused] at hfound
  exact absurd hfound (by simp)

/-! ## Resolution -/

/-- A question fails if discovery does. -/
theorem error_of_fails_exists?
    (h : Session.Fails (c.host fs transformer cwd) (Session.exists? p) t e) :
    discoverComponent c fs transformer p = .error e := by
  have hanswer : (overlayExists (discoverComponent c fs transformer) fs t p).1 = .error e :=
    Session.fails_exists?_iff.1 h
  have hasked := asked_overlayExists (discoverComponent c fs transformer) fs t p
  generalize (overlayExists (discoverComponent c fs transformer) fs t p).1 = answer,
    (overlayExists (discoverComponent c fs transformer) fs t p).2 = t' at hanswer hasked
  cases hasked with
  | known hknown => exact absurd hanswer (by simp)
  | failed hnew e' hd =>
    cases hanswer
    exact hd
  | nothing hnew hd => exact absurd hanswer (by simp)
  | found hnew e' hd => exact absurd hanswer (by simp)

theorem Config.Probes.head (h : isIndex base p → fs.isDirectory base) :
    c.Probes fs base (p :: ps) p :=
  ⟨[], ps, rfl, h, fun _ hq => absurd hq List.not_mem_nil⟩

theorem Config.Probes.cons (hp : ¬ c.Stops fs base p) (h : c.Probes fs base ps q) :
    c.Probes fs base (p :: ps) q := by
  obtain ⟨before, after, rfl, hdirectory, hbefore⟩ := h
  exact ⟨p :: before, after, rfl, hdirectory, List.forall_mem_cons.2 ⟨hp, hbefore⟩⟩

/-- Asking for a candidate fails, or the search fails that goes on when it is not there. -/
theorem error_of_fails_probe {known : Option Bool} (hclear : c.RootClear fs)
    (ht : c.View fs transformer t) (hp : IsRooted p)
    (hdirectory : isIndex base p → fs.isDirectory base)
    (hrest : ∀ t₁, c.View fs transformer t₁ →
      Session.Fails (c.host fs transformer cwd) (search base known ps) t₁ e →
        ∃ q, c.Probes fs base ps q ∧ discoverComponent c fs transformer q = .error e)
    (h : Session.Fails (c.host fs transformer cwd)
      (do if ← Session.exists? p then pure (some p) else search base known ps) t e) :
    ∃ q, c.Probes fs base (p :: ps) q ∧ discoverComponent c fs transformer q = .error e := by
  rcases Session.fails_bind_iff.1 h with h | ⟨b, t₁, hanswer, h⟩
  · exact ⟨p, .head hdirectory, error_of_fails_exists? h⟩
  · obtain ⟨hgrows, hb, -⟩ := available_of_exists? hclear ht hp hanswer
    cases b with
    | true => exact absurd h Session.not_fails_pure
    | false =>
      have hnot : ¬ c.Stops fs base p := fun hstops => Bool.false_ne_true (hb.2 hstops.available)
      obtain ⟨q, hq, hrefused⟩ := hrest t₁ hgrows.view h
      exact ⟨q, hq.cons hnot, hrefused⟩

theorem error_of_fails_search {known : Option Bool} (hclear : c.RootClear fs)
    (ht : c.View fs transformer t) (hps : ∀ p ∈ ps, IsRooted p)
    (hknown : ∀ b, known = some b → b = fs.isDirectory base)
    (h : Session.Fails (c.host fs transformer cwd) (search base known ps) t e) :
    ∃ q, c.Probes fs base ps q ∧ discoverComponent c fs transformer q = .error e := by
  induction ps generalizing known t with
  | nil => exact absurd h Session.not_fails_pure
  | cons p ps ih =>
    obtain ⟨hp, hps⟩ := List.forall_mem_cons.1 hps
    rw [search] at h
    by_cases hindex : isIndex base p
    · rw [if_pos hindex] at h
      -- the directory is asked for or known; what follows is the same either way
      obtain ⟨b, hb, h⟩ : ∃ b, b = fs.isDirectory base ∧
          Session.Fails (c.host fs transformer cwd)
            (if b then (do if ← Session.exists? p then pure (some p) else search base (some b) ps)
              else search base (some b) ps) t e := by
        cases known with
        | some b => exact ⟨b, hknown b rfl, h⟩
        | none =>
          rcases Session.fails_bind_iff.1 h with h | ⟨b, t₁, hasked, h⟩
          · exact absurd h Session.not_fails_isDirectory
          · obtain ⟨rfl, rfl⟩ := Session.returns_isDirectory_iff.1 hasked
            exact ⟨_, rfl, h⟩
      have hknown' : ∀ b', some b = some b' → b' = fs.isDirectory base := by
        rintro b' hb'
        cases hb'
        exact hb
      cases b with
      | true =>
        exact error_of_fails_probe hclear ht hp (fun _ => hb.symm)
          (fun t₁ ht₁ => ih ht₁ hps hknown') h
      | false =>
        have hnot : ¬ c.Stops fs base p := by
          intro hstops
          have hdirectory := hstops.directory hindex
          rw [← hb] at hdirectory
          exact Bool.false_ne_true hdirectory
        obtain ⟨q, hq, hrefused⟩ := ih ht hps hknown' h
        exact ⟨q, hq.cons hnot, hrefused⟩
    · rw [if_neg hindex] at h
      exact error_of_fails_probe hclear ht hp (fun h => absurd h hindex)
        (fun t₁ ht₁ => ih ht₁ hps hknown) h

theorem error_of_fails_resolve {specifier : String} (hclear : c.RootClear fs)
    (ht : c.View fs transformer t) (hp : IsTyped p) (hrelative : Script.isRelative specifier)
    (h : Session.Fails (c.host fs transformer cwd) (Resolution.resolve specifier p) t e) :
    ∃ q, c.Probes fs (importBase specifier p) (candidates (importBase specifier p)) q ∧
      discoverComponent c fs transformer q = .error e := by
  rw [Resolution.resolve, if_pos hrelative] at h
  have hbase := Resolution.isRooted_importBase specifier hp.isScript
  exact error_of_fails_search hclear ht
    (fun q hq => (Resolution.isTyped_of_mem_candidates hbase hq).rooted)
    (fun b hb => absurd hb (by simp)) h

/-- **The imports of a file fail to be resolved** only by a question that is refused. -/
theorem error_of_fails_resolveAll {specifiers : List String} (hclear : c.RootClear fs)
    (ht : c.View fs transformer t) (hp : IsTyped p)
    (h : Session.Fails (c.host fs transformer cwd) (Program.resolveAll p specifiers program) t e) :
    ∃ specifier ∈ specifiers, Script.isRelative specifier ∧ ∃ q,
      c.Probes fs (importBase specifier p) (candidates (importBase specifier p)) q ∧
        discoverComponent c fs transformer q = .error e := by
  -- The first specifier fails, or is resolved and leaves a view from which a later one does.
  induction specifiers generalizing program t with
  | nil => exact absurd h Session.not_fails_pure
  | cons specifier specifiers ih =>
    have hrest : ∀ {program t}, c.View fs transformer t →
        Session.Fails (c.host fs transformer cwd) (Program.resolveAll p specifiers program) t e →
        ∃ s ∈ specifier :: specifiers, Script.isRelative s ∧ ∃ q,
          c.Probes fs (importBase s p) (candidates (importBase s p)) q ∧
            discoverComponent c fs transformer q = .error e := by
      intro program t ht h
      obtain ⟨s, hs, hasked⟩ := ih ht h
      exact ⟨s, List.mem_cons_of_mem specifier hs, hasked⟩
    rw [Program.resolveAll] at h
    by_cases hrelative : Script.isRelative specifier
    · rw [if_pos hrelative] at h
      rcases Session.fails_bind_iff.1 h with h | ⟨found, t₁, hresolve, h⟩
      · exact ⟨specifier, List.mem_cons_self, hrelative,
          error_of_fails_resolve hclear ht hp hrelative h⟩
      · have hview := (resolves_of_resolve hclear ht hp hrelative hresolve).1.view
        cases found with
        | none => exact hrest hview h
        | some found =>
          rcases Session.fails_bind_iff.1 h with h | ⟨imported, t₂, -, h⟩
          · exact hrest hview h
          · exact absurd h Session.not_fails_pure
    · rw [if_neg hrelative] at h
      exact hrest ht h

/-! ## Loading -/

/-- A file that is there and known can be read. -/
theorem exists_text_of_available (transformer : Transformer) (cwd : Path)
    (hp : c.Available m.fileSystem p)
    (hknown : c.Shows m.fileSystem p → p ∈ t.keys) :
    ∃ text, (overlay (discoverComponent c m.fileSystem transformer) m.fileSystem cwd).textOf t p =
      .ok (some text) := by
  show ∃ text, overlayText? m.fileSystem t p = .ok (some text)
  rw [overlayText?]
  cases hget : t.get? p with
  | some e => exact ⟨e.source, rfl⟩
  | none =>
    rcases hp with hshows | hfile
    · exact absurd (Table.contains_of_mem_keys (hknown hshows)) (Table.get?_eq_none_iff.1 hget)
    · exact MemoryFiles.exists_textOf?_of_isFile hfile

theorem refuses_of_drain {load : Path → String → List Path → Program → Session Program}
    (hload : ∀ p text queue,
      c.Loading m.fileSystem transformer start roots (p :: queue) program t →
        ¬ program.files.contains p → c.Serves m.fileSystem transformer p text →
          Session.Fails (c.host m.fileSystem transformer cwd) (load p text queue program) t e →
            c.Refuses m.fileSystem transformer e)
    (h : c.Loading m.fileSystem transformer start roots queue program t)
    (hfails : Session.Fails (c.host m.fileSystem transformer cwd)
      (Program.drain load queue program) t e) : c.Refuses m.fileSystem transformer e := by
  induction queue with
  | nil => exact absurd hfails Session.not_fails_pure
  | cons p queue ih =>
    rw [Program.drain] at hfails
    by_cases hcontains : program.files.contains p
    · rw [if_pos hcontains] at hfails
      exact ih (h.drop hcontains) hfails
    · rw [if_neg hcontains] at hfails
      -- what is queued is there, so it can be read
      have hp := h.queued p List.mem_cons_self
      obtain ⟨text, htext⟩ :=
        exists_text_of_available transformer cwd hp.available hp.known
      have hread : Session.Returns (c.host m.fileSystem transformer cwd) (Session.read? p) t
          (some text) t := Session.returns_read?_iff.2 ⟨htext, rfl⟩
      rcases Session.fails_bind_iff.1 hfails with hfails | ⟨found, t₁, hfound, hfails⟩
      · exact absurd hfails hread.not_fails
      · obtain ⟨htext', rfl⟩ := Session.returns_read?_iff.1 hfound
        obtain rfl : some text = found := Except.ok.inj (htext.symm.trans htext')
        exact hload p text queue h hcontains
          (serves_of_read? h.grows.view hp.typed.rooted hp.known htext) hfails

/-- **Loading fails only by a question.** Every file that is loaded uses up one of those announced,
and there are enough of them. -/
theorem refuses_of_loadAll {n : Nat} (hclear : c.RootClear m.fileSystem)
    (hstart : ∀ k, c.Lists m.fileSystem k → k ∈ start.keys)
    (hbound : 4 * m.files.size + start.size ≤ n + program.files.size)
    (h : c.Loading m.fileSystem transformer start roots queue program t)
    (hfails : Session.Fails (c.host m.fileSystem transformer cwd)
      (Program.loadAll n queue program) t e) : c.Refuses m.fileSystem transformer e := by
  induction n generalizing queue program t with
  | zero =>
    refine refuses_of_drain ?_ h hfails
    intro p text queue h hnew hserves hload
    have hlt := h.length_files_lt hstart hnew
    omega
  | succ n ih =>
    refine refuses_of_drain ?_ h hfails
    intro p text queue h hnew hserves hload
    have hp := h.queued p List.mem_cons_self
    rcases Session.fails_bind_iff.1 hload with hload | ⟨⟨imports, program'⟩, t₁, hresolved, hload⟩
    · obtain ⟨specifier, hspecifier, hrelative, q, hq, hrefused⟩ :=
        error_of_fails_resolveAll hclear h.grows.view hp.typed hload
      exact ⟨p, q, hp.reached, ⟨text, specifier, hserves, hspecifier, hrelative, hq⟩, hrefused⟩
    · have hfiles := (resolves_of_resolveAll hclear h.grows.view hp.typed hresolved).2.1
      have hsize : (program'.addFile p text imports).files.size = program.files.size + 1 := by
        rw [Program.addFile, hfiles]
        exact PathMap.size_insert_of_not_contains hnew
      exact ih (by rw [hsize]; omega) (h.load hclear hnew hserves hresolved) hload

theorem refuses_of_build (hclear : c.RootClear m.fileSystem) (ht : c.View m.fileSystem transformer t)
    (hroots : ∀ p ∈ roots, c.Loadable m.fileSystem transformer t p)
    (hfails : Session.Fails (c.host m.fileSystem transformer cwd) (Program.build roots) t e) :
    c.Refuses m.fileSystem transformer e := by
  rcases Session.fails_bind_iff.1 hfails with hfails | ⟨directory, t₁, hdirectory, hfails⟩
  · exact absurd hfails Session.not_fails_directory
  obtain ⟨-, rfl⟩ := Session.returns_directory_iff.1 hdirectory
  rcases Session.fails_bind_iff.1 hfails with hfails | ⟨bound, t₂, hbound, hfails⟩
  · exact absurd hfails Session.not_fails_bound
  obtain ⟨rfl, rfl⟩ := Session.returns_bound_iff.1 hbound
  rw [Path.map_normalize_join _ fun p hp => (hroots p hp).typed.rooted] at hfails
  -- the host announces as many files as a program can hold
  have hannounced : 4 * m.files.size + t.size ≤
      (4 * m.files.size + t.size) + Program.empty.files.size := Nat.le_add_right _ _
  exact refuses_of_loadAll hclear ht.listed hannounced (ht.loading_empty hroots) hfails

/-! ## Compiling -/

/-- **A pass fails only by a question.** -/
theorem refuses_of_compile (hclear : c.RootClear m.fileSystem)
    (ht : c.View m.fileSystem transformer t)
    (hroots : ∀ p ∈ roots, c.Loadable m.fileSystem transformer t p)
    (h : ((c.setting transformer Emission.compile m.fileSystem cwd).compile roots t).result =
      .error e) : c.Refuses m.fileSystem transformer e := by
  have hroots' : ∀ p ∈ roots, c.Loadable m.fileSystem transformer t.clearDiscovered p :=
    fun p hp => (hroots p hp).clearDiscovered
  have hfails : Session.Fails (c.host m.fileSystem transformer cwd)
      (Emission.compile roots c.options.declarationOnly) t.clearDiscovered e := h
  have hdeclaration : (!c.options.declarationOnly.declaration) = false := rfl
  rw [Emission.compile, hdeclaration, if_neg Bool.false_ne_true] at hfails
  rcases Session.fails_bind_iff.1 hfails with hfails | ⟨program, t₁, -, hfails⟩
  · exact refuses_of_build hclear ht.clearDiscovered hroots' hfails
  -- once the program is there, nothing is asked any more
  rcases Session.fails_bind_iff.1 hfails with hfails | ⟨written, t₂, -, hfails⟩
  · exact absurd hfails (Emission.returns_writeAll (fun _ _ _ => rfl) _ _ _).not_fails
  rcases Session.fails_bind_iff.1 hfails with hfails | ⟨u, t₃, -, hfails⟩
  · exact absurd hfails Session.not_fails_report
  · exact absurd hfails Session.not_fails_pure

/-! ## Runs -/

/-- Passes over a settled table fail only by a question. -/
theorem refuses_of_runPasses {n : Nat} (hclear : c.RootClear m.fileSystem)
    (ht : c.Settled m.fileSystem transformer t) (hworklist : ∀ k ∈ schedule.worklist, k ∈ t.keys)
    (h : ((c.setting transformer Emission.compile m.fileSystem cwd).runPasses n schedule
      t).result = .error e) : c.Refuses m.fileSystem transformer e := by
  induction n generalizing schedule t with
  | zero => exact absurd h (by simp [Setting.runPasses, Setting.finish])
  | succ n ih =>
    have hroots : ∀ k ∈ schedule.worklist, c.Loadable m.fileSystem transformer t k := fun k hk =>
      ht.view.loadable (hworklist k hk) (ht.reached k (hworklist k hk))
    have hproceeds :=
      proceeds_runPasses (c.setting transformer Emission.compile m.fileSystem cwd) n schedule t
    generalize (c.setting transformer Emission.compile m.fileSystem cwd).runPasses (n + 1) schedule
      t = run at hproceeds h
    cases hproceeds with
    | finish hstage => exact absurd h (by simp [Setting.finish])
    | fail hrunning e' log hcompile =>
      cases h
      exact refuses_of_compile hclear ht.view hroots hcompile
    | pass hrunning output log hcompile =>
      obtain ⟨files, hpassed⟩ := passed_of_compile hclear ht.view hroots hcompile
      exact ih (hpassed.settled ht) (fun k hk => Table.mem_keys_of_mem_discoveredKeys hk) h

/-- **A run over listed components fails only by a question.** -/
theorem refuses_of_run {maxPasses : Nat} (ht : c.Fresh m.fileSystem transformer t)
    (h : ((c.setting transformer Emission.compile m.fileSystem cwd).run maxPasses t).result =
      .error e) : c.Refuses m.fileSystem transformer e := by
  cases maxPasses with
  | zero => exact absurd h (by simp [Setting.run, Setting.runPasses, Setting.finish])
  | succ n =>
    have hopens := opens_run (c.setting transformer Emission.compile m.fileSystem cwd) n t
    generalize (c.setting transformer Emission.compile m.fileSystem cwd).run (n + 1) t = run
      at hopens h
    cases hopens with
    | idle hempty log => exact absurd h (by simp)
    | fail hne e' log hcompile =>
      cases h
      exact refuses_of_compile (ht.rootClear hne) ht.view (fun k => ht.loadable) hcompile
    | pass hne output schedule log hcompile hdue hworklist =>
      exact refuses_of_runPasses (ht.rootClear hne) (ht.settled hne hcompile)
        (fun k hk => Table.mem_keys_of_mem_discoveredKeys (hworklist ▸ hk)) h

/-- **A run over listed components does not fail** if all questions are answered. -/
theorem exists_report_of_run (cwd : Path) (maxPasses : Nat)
    (ht : c.Fresh m.fileSystem transformer t) (hanswered : c.Answered m.fileSystem transformer) :
    ∃ report, ((c.setting transformer Emission.compile m.fileSystem cwd).run maxPasses t).result =
      .ok report := by
  cases h : ((c.setting transformer Emission.compile m.fileSystem cwd).run maxPasses t).result with
  | ok report => exact ⟨report, rfl⟩
  | error e => exact absurd (refuses_of_run ht h) hanswered.not_refuses

/-- **A run that has succeeded has had answers to all questions.** -/
theorem answered_of_generate (habsolute : ∀ p ∈ c.components, p.isAbsolute) (hmax : 1 ≤ c.maxPasses)
    (h : (generate c transformer Emission.compile m.fileSystem cwd).result = .ok t) :
    c.Answered m.fileSystem transformer := by
  obtain ⟨initial, hinitial, ⟨report, hreport⟩, -⟩ := exists_initial_of_generate h
  have hfresh := fresh_initialTable habsolute hinitial
  obtain ⟨n, hn⟩ := Nat.exists_eq_add_of_le' hmax
  rw [Config.run, hn] at hreport
  have hopens := opens_run (c.setting transformer Emission.compile m.fileSystem cwd) n initial
  generalize (c.setting transformer Emission.compile m.fileSystem cwd).run (n + 1) initial = run
    at hopens hreport
  intro p hp
  cases hopens with
  | idle hempty log =>
    -- nothing is listed, so nothing is reached
    exact absurd hp (not_reaches_of_keys_eq_nil hfresh.view hempty p)
  | fail hne e log hcompile => exact absurd hreport (by simp)
  | pass hne output schedule log hcompile hdue hworklist =>
    obtain ⟨files, hpassed⟩ :=
      passed_of_compile (hfresh.rootClear hne) hfresh.view (fun k => hfresh.loadable) hcompile
    exact hpassed.asked p (hpassed.mem_files hfresh.view.listed hp)

end SvelteTypings.Generation
